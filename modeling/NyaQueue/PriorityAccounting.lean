import NyaQueue.Partition
import NyaQueue.Lib.Accounting

/-!
# What is pending in a priority index

The entries of all levels as one multiset, and how each operation changes it.
Together with the entries an operation drops, nothing appears or disappears.
-/

set_option autoImplicit false

namespace NyaQueue

open Accounting

theorem int32_ofNat_succ (n : Nat) : Int32.ofNat (n + 1) = Int32.ofNat n + 1 :=
  Int32.ofNat_add n 1

theorem EntryRing.pushBack_conserves (r : EntryRing) (e : PendingEntry) :
    ((r.pushBack e).1.linearize : Multiset PendingEntry) +
        ((r.pushBack e).2.toList : Multiset PendingEntry) =
      (r.linearize : Multiset PendingEntry) + {e} := by
  have conserved := BoundedQueue.push_conserves r.cap r.linearize e
  rw [pushBack_linearize, pushBack_evicted, Multiset.coe_add, ← Multiset.coe_singleton,
    Multiset.coe_add]
  exact Multiset.coe_eq_coe.mpr conserved

namespace PriorityLevel

/-- The count agrees with the number of queued entries. -/
def Exact (lv : PriorityLevel) : Prop := lv.count = Int32.ofNat lv.ring.linearize.length

theorem push_conserves (lv : PriorityLevel) (e : PendingEntry) :
    ((lv.push e).1.ring.linearize : Multiset PendingEntry) +
        ((lv.push e).2.toList : Multiset PendingEntry) =
      (lv.ring.linearize : Multiset PendingEntry) + {e} := by
  rw [push_linearize, push_evicted, ← EntryRing.pushBack_linearize, ← EntryRing.pushBack_evicted]
  exact lv.ring.pushBack_conserves e

theorem push_length (lv : PriorityLevel) (e : PendingEntry) :
    (lv.push e).1.ring.linearize.length + (lv.push e).2.toList.length =
      lv.ring.linearize.length + 1 := by
  simpa using congrArg Multiset.card (lv.push_conserves e)

theorem Exact.push {lv : PriorityLevel} (exact : lv.Exact) (e : PendingEntry) :
    (lv.push e).1.Exact := by
  have length := lv.push_length e
  unfold Exact at exact ⊢
  rw [push_eq] at length ⊢
  dsimp only at length ⊢
  cases evicted : (lv.ring.pushBack e).2 with
  | none =>
    have grown : (lv.ring.pushBack e).1.linearize.length = lv.ring.linearize.length + 1 := by
      simpa [evicted] using length
    rw [if_pos rfl, exact, grown, int32_ofNat_succ]
  | some old =>
    have same : (lv.ring.pushBack e).1.linearize.length = lv.ring.linearize.length := by
      simpa [evicted] using length
    rw [if_neg (Option.some_ne_none old), exact, same]

theorem Exact.pop {lv : PriorityLevel} (exact : lv.Exact) {oldest : PendingEntry}
    {rest : List PendingEntry} (queued : lv.ring.linearize = oldest :: rest) :
    lv.pop.1.Exact := by
  obtain ⟨-, tail, -, count⟩ := pop_of_cons queued
  unfold Exact at exact ⊢
  rw [count, tail, exact, queued, List.length_cons, int32_ofNat_succ, Int32.add_sub_cancel]

theorem keepFresh_linearize (lv : PriorityLevel) (now : Time) (ttl : Int) :
    (lv.keepFresh now ttl).ring.linearize = lv.fresh now ttl := by
  have fits : (lv.fresh now ttl).length ≤ lv.ring.size := by
    rw [← lv.ring.linearize_length]
    exact List.length_filter_le ..
  exact (lv.ring.resetFrom_linearize _).trans (lv.ring.newest_of_le _ fits)

theorem stale_add_fresh (lv : PriorityLevel) (now : Time) (ttl : Int) :
    (lv.stale now ttl : Multiset PendingEntry) + (lv.fresh now ttl : Multiset PendingEntry) =
      (lv.ring.linearize : Multiset PendingEntry) := by
  rw [Multiset.coe_add]
  exact Multiset.coe_eq_coe.mpr (List.filter_append_perm ..)

end PriorityLevel

namespace PriorityIndex

/-- The entries of all levels. -/
def pending (pi : PriorityIndex) : Multiset PendingEntry :=
  ∑ p : Level, (pi.contents p : Multiset PendingEntry)

variable {pi : PriorityIndex} {result : PriorityIndex × Option PendingEntry}

theorem pending_of_update {pi' : PriorityIndex} {p : Level} {queue : List PendingEntry}
    (updated : pi'.contents = Function.update pi.contents p queue) :
    pi'.pending + (pi.contents p : Multiset PendingEntry) =
      pi.pending + (queue : Multiset PendingEntry) := by
  have replaced := sum_update_add (fun q => (pi.contents q : Multiset PendingEntry)) p
    (queue : Multiset PendingEntry)
  rw [pending, updated, pending, ← replaced]
  congr 2
  funext q
  by_cases same : q = p
  · subst same
    simp
  · simp [Function.update_of_ne same]

theorem newPriorityIndex_pending (maxPerLevel : Int) :
    (newPriorityIndex maxPerLevel).pending = 0 := by
  simp [pending, newPriorityIndex_contents]

/-- The entry an `Add` drops to make room. -/
def addEvicted (pi : PriorityIndex) (priority : Int) (e : PendingEntry) : Option PendingEntry :=
  (BoundedQueue.push (pi.levels (clampLevel priority)).ring.cap
    (pi.contents (clampLevel priority)) e).2

theorem pending_add (pi : PriorityIndex) (priority : Int) (offset : Int64) (arrivedAt : Time) :
    (pi.add priority offset arrivedAt).1.pending +
        ((pi.addEvicted priority ⟨offset, arrivedAt⟩).toList : Multiset PendingEntry) =
      pi.pending + {⟨offset, arrivedAt⟩} := by
  have level := pending_of_update (pi.add_contents priority offset arrivedAt)
  have conserved := BoundedQueue.push_conserves (pi.levels (clampLevel priority)).ring.cap
    (pi.contents (clampLevel priority)) ⟨offset, arrivedAt⟩
  have queue := Multiset.coe_eq_coe.mpr conserved
  rw [← Multiset.coe_add, ← Multiset.coe_add] at queue
  apply add_right_cancel (b := (pi.contents (clampLevel priority) : Multiset PendingEntry))
  rw [add_right_comm, level, add_assoc, addEvicted, queue, Multiset.coe_singleton]
  abel

/-- The two things a pop can do: nothing, or take the front of one level. -/
def TakesFront (pi : PriorityIndex) (result : PriorityIndex × Option PendingEntry) : Prop :=
  result = (pi, none) ∨ ∃ p e rest, pi.contents p = e :: rest ∧ result.2 = some e ∧
    result.1 = (pi.setLevel p (pi.levels p).pop.1).addTotal (-1)

theorem popFirst_takesFront (pi : PriorityIndex) (tried : List Level) :
    pi.TakesFront (pi.popFirst tried) := by
  rcases pi.popFirst_cases tried with ⟨-, nothing⟩ | ⟨-, p, -, e, rest, -, -, queued, front, index⟩
  · exact .inl nothing
  · exact .inr ⟨p, e, rest, queued, front, index⟩

theorem oldestFront_queued (pi : PriorityIndex) (tried : List Level) :
    ∀ (best : Option (Level × Time)) (p : Level) (arrivedAt : Time),
      pi.oldestFront best tried = some (p, arrivedAt) →
      best = some (p, arrivedAt) ∨ ∃ e rest, pi.contents p = e :: rest := by
  induction tried with
  | nil => intro best p arrivedAt found; exact .inl found
  | cons q after ih =>
    intro best p arrivedAt found
    rw [oldestFront, EntryRing.peekFront_eq_head?] at found
    cases queued : (pi.levels q).ring.linearize with
    | nil =>
      rw [queued] at found
      exact ih best p arrivedAt found
    | cons e rest =>
      rw [queued] at found
      have here : ∀ arrived, some (q, arrived) = some (p, arrivedAt) →
          ∃ e rest, pi.contents p = e :: rest := by
        intro arrived same
        cases same
        exact ⟨e, rest, queued⟩
      cases best with
      | none =>
        rcases ih _ p arrivedAt found with same | later
        · exact .inr (here _ same)
        · exact .inr later
      | some chosen =>
        dsimp only [List.head?_cons] at found
        split at found
        · rcases ih _ p arrivedAt found with same | later
          · exact .inr (here _ same)
          · exact .inr later
        · exact ih _ p arrivedAt found

theorem popWithThreshold_takesFront (pi : PriorityIndex) (threshold : Int) :
    pi.TakesFront (pi.popWithThreshold threshold) := by
  unfold popWithThreshold
  dsimp only
  rcases pi.popFirst_takesFront (levelsDownTo threshold) with
    nothing | ⟨p, e, rest, queued, front, index⟩
  · rw [nothing]
    dsimp only
    cases found : pi.oldestFront none (levelsBelow threshold) with
    | none => exact .inl rfl
    | some best =>
      obtain ⟨p, arrivedAt⟩ := best
      rcases pi.oldestFront_queued _ none p arrivedAt found with impossible | ⟨e, rest, queued⟩
      · cases impossible
      · exact .inr ⟨p, e, rest, queued, (PriorityLevel.pop_of_cons queued).1, rfl⟩
  · rw [front]
    exact .inr ⟨p, e, rest, queued, rfl, index⟩

theorem TakesFront.none (pops : pi.TakesFront result) (nothing : result.2 = none) :
    result.1 = pi := by
  rcases pops with same | ⟨p, e, rest, -, front, -⟩
  · rw [same]
  · rw [front] at nothing
    cases nothing

theorem TakesFront.pending (pops : pi.TakesFront result) {e : PendingEntry}
    (popped : result.2 = some e) :
    result.1.pending + {e} = pi.pending := by
  rcases pops with same | ⟨p, e', rest, queued, front, index⟩
  · rw [same] at popped
    cases popped
  · rw [front] at popped
    cases popped
    have level := pending_of_update (pop_contents queued)
    rw [queued] at level
    rw [index]
    exact add_singleton_of_add_cons level

theorem TakesFront.capacity (pops : pi.TakesFront result) {capacity : Nat}
    (same : pi.Capacity capacity) :
    result.1.Capacity capacity := by
  rcases pops with nothing | ⟨p, e, rest, queued, -, index⟩
  · rw [nothing]
    exact same
  · rw [index]
    have cap := (PriorityLevel.pop_of_cons queued).2.2.1
    exact (same.setLevel p (cap.trans (same p))).addTotal _

end PriorityIndex

/-! ## The index update of an append -/

def messageLevel (m : Message) : Level := clampLevel m.header.priority.toNat

def indexEntry (now : Time) (entry : Message × Nat) : PendingEntry :=
  ⟨int64OfOffset entry.2, now⟩

/-- The entries that the index update of an append drops. -/
def indexEvicted (now : Time) : List (Message × Nat) → PriorityIndex → List PendingEntry
  | [], _ => []
  | entry :: rest, pi =>
      (pi.addEvicted entry.1.header.priority.toNat (indexEntry now entry)).toList ++
        indexEvicted now rest
          (pi.add entry.1.header.priority.toNat (int64OfOffset entry.2) now).1

theorem pending_indexMessages (now : Time) (entries : List (Message × Nat)) :
    ∀ pi : PriorityIndex,
      (indexMessages now entries pi).pending + (indexEvicted now entries pi : Multiset _) =
        pi.pending + (entries.map (indexEntry now) : Multiset _) := by
  induction entries with
  | nil => intro pi; simp [indexMessages, indexEvicted]
  | cons entry rest ih =>
    intro pi
    have first := pi.pending_add entry.1.header.priority.toNat (int64OfOffset entry.2) now
    have later := ih (pi.add entry.1.header.priority.toNat (int64OfOffset entry.2) now).1
    rw [indexMessages, indexEvicted, ← Multiset.coe_add, add_left_comm, later, ← add_assoc,
      add_comm _ (PriorityIndex.pending _), indexEntry, first, List.map_cons,
      ← Multiset.cons_coe, ← Multiset.singleton_add, add_assoc]
    rfl

variable {capacity : Nat}

theorem indexMessages_capacity (now : Time) (entries : List (Message × Nat)) :
    ∀ pi : PriorityIndex, pi.Capacity capacity →
      (indexMessages now entries pi).Capacity capacity := by
  induction entries with
  | nil => intro pi same; exact same
  | cons entry rest ih => intro pi same; exact ih _ (PriorityIndex.add_capacity same _ _ _)

/-- Each level has room for the messages of the list that go there. -/
def HasRoom (capacity : Nat) (pi : PriorityIndex) (msgs : List Message) : Prop :=
  ∀ p, (pi.contents p).length + msgs.countP (fun m => messageLevel m = p) ≤ capacity

theorem contents_length_le {pi : PriorityIndex} (same : pi.Capacity capacity)
    (positive : 0 < capacity) (p : Level) : (pi.contents p).length ≤ capacity := by
  have size := (pi.levels p).ring.size_le
  have bounded := (pi.levels p).ring.buf_le
  rw [same p] at bounded
  have := bounded positive
  rw [PriorityIndex.contents, EntryRing.linearize_length]
  omega

theorem hasRoom_cons {pi : PriorityIndex} (same : pi.Capacity capacity) (m : Message)
    (rest : List Message) (offset : Int64) (now : Time) :
    HasRoom capacity pi (m :: rest) ↔
      ¬ BoundedQueue.Full capacity (pi.contents (messageLevel m)) ∧
        HasRoom capacity (pi.add m.header.priority.toNat offset now).1 rest := by
  have cap : (pi.levels (clampLevel m.header.priority.toNat)).ring.cap = capacity := same _
  have added := pi.add_contents m.header.priority.toNat offset now
  rw [cap] at added
  have counted : ∀ p, (m :: rest).countP (fun m => messageLevel m = p) =
      rest.countP (fun m => messageLevel m = p) + if messageLevel m = p then 1 else 0 := by
    intro p
    simp [List.countP_cons]
  by_cases full : BoundedQueue.Full capacity (pi.contents (messageLevel m))
  · simp only [full, not_true_eq_false, false_and, iff_false]
    intro room
    have here := room (messageLevel m)
    rw [counted, if_pos rfl] at here
    have := full.2
    omega
  · simp only [full, not_false_eq_true, true_and]
    rw [show clampLevel m.header.priority.toNat = messageLevel m from rfl,
      BoundedQueue.push_of_room full] at added
    -- one more entry at the level of the message, one message less to come
    have shifted : ∀ p, ((pi.add m.header.priority.toNat offset now).1.contents p).length =
        (pi.contents p).length + if messageLevel m = p then 1 else 0 := by
      intro p
      rw [added]
      by_cases at_p : messageLevel m = p
      · rw [if_pos at_p, ← at_p, Function.update_self, List.length_append, List.length_singleton]
      · rw [if_neg at_p, Function.update_of_ne (Ne.symm at_p), Nat.add_zero]
    unfold HasRoom
    refine forall_congr' fun p => ?_
    rw [counted, shifted]
    omega

theorem indexEvicted_eq_nil_iff (now : Time) (positive : 0 < capacity)
    (entries : List (Message × Nat)) : ∀ pi : PriorityIndex, pi.Capacity capacity →
      (indexEvicted now entries pi = [] ↔ HasRoom capacity pi (entries.map Prod.fst)) := by
  induction entries with
  | nil =>
    intro pi same
    have fits : HasRoom capacity pi [] := fun p => contents_length_le same positive p
    simp [indexEvicted, fits]
  | cons entry rest ih =>
    intro pi same
    have cap : (pi.levels (clampLevel entry.1.header.priority.toNat)).ring.cap = capacity :=
      same _
    rw [List.map_cons, hasRoom_cons same _ _ (int64OfOffset entry.2) now,
      indexEvicted, List.append_eq_nil_iff, ih _ (PriorityIndex.add_capacity same _ _ _),
      PriorityIndex.addEvicted, cap]
    refine and_congr_left fun _ => ?_
    by_cases full : BoundedQueue.Full capacity (pi.contents (messageLevel entry.1))
    · obtain ⟨oldest, others, queue⟩ := BoundedQueue.full_cons full
      have evicts := BoundedQueue.push_of_full full (indexEntry now entry)
      rw [queue] at evicts
      simp only [full, not_true_eq_false, iff_false]
      rw [show clampLevel entry.1.header.priority.toNat = messageLevel entry.1 from rfl,
        queue, evicts]
      simp
    · simp only [full, not_false_eq_true, iff_true]
      rw [show clampLevel entry.1.header.priority.toNat = messageLevel entry.1 from rfl,
        BoundedQueue.push_of_room full]
      rfl

end NyaQueue
