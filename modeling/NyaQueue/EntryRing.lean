import NyaQueue.Lib.CircularBuffer
import NyaQueue.Lib.BoundedQueue

/-!
# The pending-entry ring

Model of `entryRing` in `pkg/broker/priority_index.go`: a circular buffer with
an optional fixed capacity.  The structure carries what every operation needs
to index the buffer safely, so a ring with an index out of range cannot be
built.  Each operation is shown to act on `linearize` as the corresponding
operation of a bounded queue.
-/

set_option autoImplicit false

namespace NyaQueue

open CircularBuffer

/-- Nanoseconds since the Unix epoch. -/
abbrev Time := Int

structure PendingEntry where
  walOffset : Int64
  arrivedAt : Time
  deriving DecidableEq, Repr

/-- The zero `PendingEntry`; the zero time is the first instant of year one. -/
instance pendingEntryInhabited : Inhabited PendingEntry :=
  ⟨{ walOffset := 0, arrivedAt := -62135596800 * 10 ^ 9 }⟩

structure EntryRing where
  buf : List PendingEntry
  head : Nat
  size : Nat
  cap : Nat
  size_le : size ≤ buf.length
  head_lt : 0 < buf.length → head < buf.length
  buf_le : 0 < cap → buf.length ≤ cap

namespace EntryRing

/-- The ring `NewPriorityIndex` builds: preallocated when a capacity is set,
the zero value otherwise. -/
def new (cap : Nat) : EntryRing where
  buf := List.replicate cap default
  head := 0
  size := 0
  cap := cap
  size_le := Nat.zero_le _
  head_lt := id
  buf_le := fun _ => Nat.le_of_eq List.length_replicate

/-- A contiguous copy of all entries, oldest first. -/
def linearize (r : EntryRing) : List PendingEntry := window r.buf r.head r.size

variable (r : EntryRing) (entries : List PendingEntry) (e : PendingEntry)

@[simp] theorem linearize_length : r.linearize.length = r.size :=
  window_length _ _ _

def grownCap (r : EntryRing) : Nat :=
  let newCap := max (r.buf.length * 2) 16
  if 0 < r.cap ∧ r.cap < newCap then r.cap else newCap

theorem size_le_grownCap : r.size ≤ r.grownCap := by
  have size := r.size_le
  have bounded := r.buf_le
  unfold grownCap
  dsimp only
  split
  · have := bounded (by omega)
    omega
  · omega

theorem grownCap_le (positive : 0 < r.cap) : r.grownCap ≤ r.cap := by
  unfold grownCap
  dsimp only
  split <;> omega

def grow (r : EntryRing) : EntryRing where
  buf := r.linearize ++ List.replicate (r.grownCap - r.size) default
  head := 0
  size := r.size
  cap := r.cap
  size_le := by simp
  head_lt := id
  buf_le := by
    intro positive
    have size := r.size_le_grownCap
    have bounded := r.grownCap_le positive
    simp only [List.length_append, linearize_length, List.length_replicate]
    omega

@[simp] theorem grow_size : r.grow.size = r.size := rfl

theorem grow_linearize : r.grow.linearize = r.linearize := by
  have := window_front r.linearize (List.replicate (r.grownCap - r.size) default)
  rwa [linearize_length] at this

theorem grow_length : r.grow.buf.length = r.grownCap := by
  have := r.size_le_grownCap
  simp only [grow, List.length_append, linearize_length, List.length_replicate]
  omega

/-- The ring `pushBack` writes to when it does not evict. -/
def reserve (r : EntryRing) : EntryRing := if r.size = r.buf.length then r.grow else r

theorem reserve_linearize : r.reserve.linearize = r.linearize := by
  unfold reserve
  split
  · exact r.grow_linearize
  · rfl

theorem reserve_cap : r.reserve.cap = r.cap := by
  unfold reserve
  split <;> rfl

theorem reserve_room (room : ¬ (0 < r.cap ∧ r.cap ≤ r.size)) :
    r.reserve.size < r.reserve.buf.length := by
  have size := r.size_le
  unfold reserve
  by_cases filled : r.size = r.buf.length
  · rw [if_pos filled, grow_length, grow_size]
    unfold grownCap
    dsimp only
    split <;> omega
  · rw [if_neg filled]
    omega

theorem evict_head_lt (full : 0 < r.cap ∧ r.cap ≤ r.size) :
    r.head < r.buf.length ∧ r.buf.length = r.cap := by
  have size := r.size_le
  have bounded := r.buf_le full.1
  exact ⟨r.head_lt (by omega), by omega⟩

def pushBack (r : EntryRing) (e : PendingEntry) : EntryRing × Option PendingEntry :=
  if full : 0 < r.cap ∧ r.cap ≤ r.size then
    ({ buf := r.buf.set r.head e
       head := (r.head + 1) % r.cap
       size := r.size
       cap := r.cap
       size_le := by rw [List.length_set]; exact r.size_le
       head_lt := by
         intro _
         rw [List.length_set, (r.evict_head_lt full).2]
         exact Nat.mod_lt _ full.1
       buf_le := by rw [List.length_set]; exact r.buf_le },
     some (r.buf.getD r.head default))
  else
    ({ buf := r.reserve.buf.set ((r.reserve.head + r.reserve.size) % r.reserve.buf.length) e
       head := r.reserve.head
       size := r.reserve.size + 1
       cap := r.reserve.cap
       size_le := by rw [List.length_set]; exact r.reserve_room full
       head_lt := by rw [List.length_set]; exact r.reserve.head_lt
       buf_le := by rw [List.length_set]; exact r.reserve.buf_le },
     none)

def popFront (r : EntryRing) : EntryRing × Option PendingEntry :=
  if r.size = 0 then (r, none)
  else
    ({ buf := r.buf.set r.head default
       head := (r.head + 1) % r.buf.length
       size := r.size - 1
       cap := r.cap
       size_le := by
         have := r.size_le
         rw [List.length_set]
         omega
       head_lt := by
         rw [List.length_set]
         exact fun positive => Nat.mod_lt _ positive
       buf_le := by rw [List.length_set]; exact r.buf_le },
     some (r.buf.getD r.head default))

def peekFront (r : EntryRing) : Option PendingEntry :=
  if r.size = 0 then none else some (r.buf.getD r.head default)

/-- The entries `resetFrom` keeps: the newest `cap` of them. -/
def newest (r : EntryRing) (entries : List PendingEntry) : List PendingEntry :=
  if 0 < r.cap ∧ r.cap < entries.length then entries.drop (entries.length - r.cap) else entries

theorem newest_length_le (positive : 0 < r.cap) :
    (r.newest entries).length ≤ r.cap := by
  unfold newest
  split
  · rw [List.length_drop]
    omega
  · omega

def resetFrom (r : EntryRing) (entries : List PendingEntry) : EntryRing where
  buf := r.newest entries ++
    List.replicate (r.buf.length - (r.newest entries).length) default
  head := 0
  size := (r.newest entries).length
  cap := r.cap
  size_le := by simp
  head_lt := id
  buf_le := by
    intro positive
    have kept := r.newest_length_le entries positive
    have bounded := r.buf_le positive
    simp only [List.length_append, List.length_replicate]
    omega

/-! ## Refinement of a bounded queue -/

theorem new_linearize (cap : Nat) : (new cap).linearize = [] := rfl

theorem full_iff :
    BoundedQueue.Full r.cap r.linearize ↔ 0 < r.cap ∧ r.cap ≤ r.size := by
  rw [BoundedQueue.Full, linearize_length]

theorem fits : BoundedQueue.Fits r.cap r.linearize := by
  intro positive
  have size := r.size_le
  have bounded := r.buf_le positive
  rw [r.linearize_length]
  omega

theorem pushBack_linearize :
    (r.pushBack e).1.linearize = (BoundedQueue.push r.cap r.linearize e).1 := by
  by_cases full : 0 < r.cap ∧ r.cap ≤ r.size
  · obtain ⟨inside, width⟩ := r.evict_head_lt full
    have size : r.size = r.buf.length := by
      have := r.size_le
      omega
    rw [BoundedQueue.push_of_full (r.full_iff.mpr full), pushBack, dif_pos full]
    simp only [linearize]
    rw [← width, size]
    exact window_rotate r.buf r.head e inside
  · rw [BoundedQueue.push_of_room (fun h => full (r.full_iff.mp h)), pushBack, dif_neg full,
      ← r.reserve_linearize]
    exact window_push _ _ _ e (r.reserve_room full)

theorem popFront_of_empty {r : EntryRing} (empty : r.linearize = []) :
    r.popFront = (r, none) := by
  have size : r.size = 0 := by
    rw [← r.linearize_length, empty]
    rfl
  rw [popFront, if_pos size]

theorem linearize_of_pos (positive : r.size ≠ 0) :
    r.linearize = r.buf.getD r.head default ::
      window r.buf ((r.head + 1) % r.buf.length) (r.size - 1) := by
  have inside : r.head < r.buf.length := r.head_lt (by have := r.size_le; omega)
  rw [← window_pop r.buf r.head (r.size - 1) inside, linearize]
  congr 1
  omega

theorem linearize_cons {r : EntryRing} {oldest : PendingEntry} {rest : List PendingEntry}
    (queued : r.linearize = oldest :: rest) :
    r.size ≠ 0 ∧ r.head < r.buf.length ∧ r.buf.getD r.head default = oldest ∧
      window r.buf ((r.head + 1) % r.buf.length) (r.size - 1) = rest := by
  have size : r.size ≠ 0 := by
    rw [← r.linearize_length, queued]
    simp
  have inside : r.head < r.buf.length := r.head_lt (by have := r.size_le; omega)
  have shape := r.linearize_of_pos size
  rw [queued] at shape
  obtain ⟨front, tail⟩ := List.cons.inj shape
  exact ⟨size, inside, front.symm, tail.symm⟩

theorem pushBack_evicted :
    (r.pushBack e).2 = (BoundedQueue.push r.cap r.linearize e).2 := by
  by_cases full : 0 < r.cap ∧ r.cap ≤ r.size
  · have queued := r.linearize_of_pos (by omega)
    rw [BoundedQueue.push_of_full (r.full_iff.mpr full), pushBack, dif_pos full, queued]
    rfl
  · rw [BoundedQueue.push_of_room (fun h => full (r.full_iff.mp h)), pushBack, dif_neg full]

@[simp] theorem pushBack_cap :
    (r.pushBack e).1.cap = r.cap := by
  unfold pushBack
  split
  · rfl
  · exact r.reserve_cap

theorem popFront_of_cons {r : EntryRing} {oldest : PendingEntry} {rest : List PendingEntry}
    (queued : r.linearize = oldest :: rest) :
    (r.popFront).2 = some oldest ∧ (r.popFront).1.linearize = rest ∧
      (r.popFront).1.cap = r.cap := by
  obtain ⟨size, inside, front, tail⟩ := linearize_cons queued
  rw [popFront, if_neg size]
  refine ⟨congrArg some front, ?_, rfl⟩
  simp only [linearize]
  rw [← tail]
  exact window_clear r.buf r.head (r.size - 1) default inside (by have := r.size_le; omega)

theorem peekFront_eq_head? : r.peekFront = r.linearize.head? := by
  cases queued : r.linearize with
  | nil =>
    have size : r.size = 0 := by
      rw [← r.linearize_length, queued]
      rfl
    rw [peekFront, if_pos size]
    rfl
  | cons oldest rest =>
    obtain ⟨size, -, front, -⟩ := linearize_cons queued
    rw [peekFront, if_neg size, front]
    rfl

theorem resetFrom_linearize :
    (r.resetFrom entries).linearize = r.newest entries :=
  window_front _ _

theorem newest_eq :
    r.newest entries = BoundedQueue.newest r.cap entries := by
  unfold newest BoundedQueue.newest
  by_cases unbounded : r.cap = 0
  · rw [if_pos unbounded, if_neg (by omega)]
  · rw [if_neg unbounded, List.rtake]
    split
    · rfl
    · rw [Nat.sub_eq_zero_of_le (by omega), List.drop_zero]

theorem newest_of_le (few : entries.length ≤ r.size) : r.newest entries = entries := by
  have held := r.fits
  rw [BoundedQueue.Fits, r.linearize_length] at held
  rw [newest_eq]
  exact BoundedQueue.newest_of_fits fun positive => few.trans (held positive)

end EntryRing

end NyaQueue
