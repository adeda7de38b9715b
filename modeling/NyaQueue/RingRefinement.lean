import NyaQueue.PriorityIndex
import NyaQueue.Lib.Checked
import NyaQueue.Lib.Slice

/-!
# The entry ring is a bounded queue

`EntryRing` carries its own bounds, so none of its operations can be given an index
that is out of range.  Here the ring is the bare record of
`pkg/broker/priority_index.go`, and an operation answers `none` where the program
would stop: at an index outside a slice, or at a remainder by zero.  Every operation
on the record behind an `EntryRing` goes through and leads to the record behind the
result, so that whatever is called on the ring of a new index, it answers as a
bounded first-in first-out queue.
-/

set_option autoImplicit false

namespace NyaQueue

open CircularBuffer Checked

/-- `entryRing`, with nothing known about its fields. -/
structure RawRing where
  buf : List PendingEntry
  head : Nat
  size : Nat
  cap : Nat

namespace RawRing

/-- The ring of a level in `NewPriorityIndex(WithMaxPerLevel(maxPerLevel))`. -/
def new (maxPerLevel : Int) : RawRing :=
  if 0 < maxPerLevel then ⟨List.replicate maxPerLevel.toNat default, 0, 0, maxPerLevel.toNat⟩
  else ⟨[], 0, 0, 0⟩

/-- `out[i] = r.buf[(r.head+i)%len(r.buf)]` -/
def copyEntry (r : RawRing) (out : List PendingEntry) (i : Nat) : Option (List PendingEntry) := do
  let slot ← mod? (r.head + i) r.buf.length
  let e ← r.buf[slot]?
  store? out i e

/-- The loop in which `grow` and `linearize` copy the entries, oldest first, to the
front of a slice. -/
def unroll (r : RawRing) (out : List PendingEntry) : Option (List PendingEntry) :=
  (List.range r.size).foldlM r.copyEntry out

def grow (r : RawRing) : Option RawRing := do
  let newCap := max (r.buf.length * 2) 16
  let newCap := if 0 < r.cap ∧ r.cap < newCap then r.cap else newCap
  let newBuf ← r.unroll (List.replicate newCap default)
  return { r with buf := newBuf, head := 0 }

/-- `grow`, where `pushBack` calls it. -/
def reserve (r : RawRing) : Option RawRing :=
  if r.size = r.buf.length then r.grow else some r

def pushBack (r : RawRing) (e : PendingEntry) : Option (RawRing × Option PendingEntry) :=
  if 0 < r.cap ∧ r.cap ≤ r.size then do
    let evicted ← r.buf[r.head]?
    let buf ← store? r.buf r.head e
    let head ← mod? (r.head + 1) r.cap
    return ({ r with buf := buf, head := head }, some evicted)
  else do
    let r ← r.reserve
    let idx ← mod? (r.head + r.size) r.buf.length
    let buf ← store? r.buf idx e
    return ({ r with buf := buf, size := r.size + 1 }, none)

def popFront (r : RawRing) : Option (RawRing × Option PendingEntry) :=
  if r.size = 0 then some (r, none)
  else do
    let e ← r.buf[r.head]?
    let buf ← store? r.buf r.head default
    let head ← mod? (r.head + 1) r.buf.length
    return ({ r with buf := buf, head := head, size := r.size - 1 }, some e)

def peekFront (r : RawRing) : Option (Option PendingEntry) :=
  if r.size = 0 then some none
  else do
    let e ← r.buf[r.head]?
    return some e

def linearize (r : RawRing) : Option (List PendingEntry) :=
  r.unroll (List.replicate r.size default)

/-- The entries that `resetFrom` keeps. -/
def newest (r : RawRing) (entries : List PendingEntry) : Option (List PendingEntry) :=
  if 0 < r.cap ∧ r.cap < entries.length then suffix? entries (entries.length - r.cap)
  else some entries

def resetFrom (r : RawRing) (entries : List PendingEntry) : Option RawRing := do
  let entries ← r.newest entries
  let need := entries.length
  let buf := if r.buf.length < need then List.replicate need default else r.buf
  let buf := Slice.overwrite buf 0 entries
  let buf ← (List.range' need (buf.length - need)).foldlM (fun buf i => store? buf i default) buf
  return { r with buf := buf, head := 0, size := need }

end RawRing

/-! ## No operation stops -/

namespace EntryRing

/-- The fields of the ring. -/
def raw (r : EntryRing) : RawRing := ⟨r.buf, r.head, r.size, r.cap⟩

theorem raw_new (maxPerLevel : Int) (level : Level) :
    ((newPriorityIndex maxPerLevel).levels level).ring.raw = RawRing.new maxPerLevel := by
  unfold RawRing.new newPriorityIndex raw EntryRing.new
  split
  · rfl
  · have : maxPerLevel.toNat = 0 := by omega
    simp [this]

variable (r : EntryRing)

theorem getElem?_head (positive : r.size ≠ 0) :
    r.buf[r.head]? = some (r.buf.getD r.head default) := by
  have inside : r.head < r.buf.length := r.head_lt (by have := r.size_le; omega)
  rw [List.getD, List.getElem?_eq_getElem inside]
  rfl

theorem copyEntry_eq (front : List PendingEntry) (inside : front.length < r.size) (x : PendingEntry)
    (rest : List PendingEntry) :
    r.raw.copyEntry (front ++ x :: rest) front.length =
      some (front ++ r.buf.getD ((r.head + front.length) % r.buf.length) default :: rest) := by
  have positive : 0 < r.buf.length := by have := r.size_le; omega
  have slot : (r.head + front.length) % r.buf.length < r.buf.length := Nat.mod_lt _ positive
  unfold RawRing.copyEntry raw
  rw [mod?_of_pos _ positive, Option.bind_eq_bind, Option.bind_some, Option.bind_eq_bind,
    List.getD, List.getElem?_eq_getElem slot, Option.bind_some, store?_of_lt (by simp)]
  simp

theorem copyEntry_turns {out : List PendingEntry} (room : r.size ≤ out.length) {n : Nat}
    (inside : n ≤ r.size) :
    (List.range n).foldlM r.raw.copyEntry out = some (window r.buf r.head n ++ out.drop n) := by
  induction n with
  | zero => simp [window]
  | succ n ih =>
    obtain ⟨x, rest, behind⟩ : ∃ x rest, out.drop n = x :: rest :=
      List.exists_cons_of_length_pos (by rw [List.length_drop]; omega)
    have later : out.drop (n + 1) = rest := by
      rw [← List.drop_drop, behind, List.drop_one, List.tail_cons]
    have turn := r.copyEntry_eq (window r.buf r.head n)
      (by rw [window_length]; omega) x rest
    rw [window_length] at turn
    rw [List.range_succ, List.foldlM_append, ih (by omega), behind, later, Option.bind_eq_bind,
      Option.bind_some, List.foldlM_cons, turn]
    simp [window, List.range_succ]

theorem raw_unroll (out : List PendingEntry) (room : r.size ≤ out.length) :
    r.raw.unroll out = some (r.linearize ++ out.drop r.size) :=
  r.copyEntry_turns room le_rfl

theorem raw_linearize : r.raw.linearize = some r.linearize := by
  have copied := r.raw_unroll (List.replicate r.size default) (by simp)
  rw [List.drop_of_length_le (by simp), List.append_nil] at copied
  exact copied

theorem raw_grow : r.raw.grow = some r.grow.raw := by
  have copied := r.raw_unroll (List.replicate r.grownCap default)
    (by rw [List.length_replicate]; exact r.size_le_grownCap)
  rw [List.drop_replicate] at copied
  exact congrArg (Option.bind · fun newBuf => some { r.raw with buf := newBuf, head := 0 }) copied

theorem raw_reserve : r.raw.reserve = some r.reserve.raw := by
  unfold RawRing.reserve reserve
  by_cases filled : r.size = r.buf.length
  · rw [if_pos filled, ← r.raw_grow]
    exact if_pos filled
  · rw [if_neg filled]
    exact if_neg filled

theorem raw_pushBack (e : PendingEntry) :
    r.raw.pushBack e = some ((r.pushBack e).1.raw, (r.pushBack e).2) := by
  unfold RawRing.pushBack pushBack
  by_cases full : 0 < r.cap ∧ r.cap ≤ r.size
  · obtain ⟨inside, -⟩ := r.evict_head_lt full
    rw [dif_pos full]
    refine (if_pos full).trans ?_
    simp only [raw, r.getElem?_head (by omega), store?_of_lt inside, mod?_of_pos _ full.1,
      Option.bind_eq_bind, Option.bind_some, Option.pure_def]
  · have positive : 0 < r.reserve.buf.length := by have := r.reserve_room full; omega
    rw [dif_neg full]
    refine (if_neg full).trans ?_
    rw [raw_reserve]
    simp only [raw, mod?_of_pos _ positive, store?_of_lt (Nat.mod_lt _ positive),
      Option.bind_eq_bind, Option.bind_some, Option.pure_def]

theorem raw_popFront :
    r.raw.popFront = some (r.popFront.1.raw, r.popFront.2) := by
  unfold RawRing.popFront popFront
  by_cases empty : r.size = 0
  · rw [if_pos empty]
    exact if_pos empty
  · have positive : 0 < r.buf.length := by have := r.size_le; omega
    rw [if_neg empty]
    refine (if_neg empty).trans ?_
    simp only [raw, r.getElem?_head empty, store?_of_lt (r.head_lt positive),
      mod?_of_pos _ positive, Option.bind_eq_bind, Option.bind_some, Option.pure_def]

theorem raw_peekFront : r.raw.peekFront = some r.peekFront := by
  unfold RawRing.peekFront peekFront
  by_cases empty : r.size = 0
  · rw [if_pos empty]
    exact if_pos empty
  · rw [if_neg empty]
    refine (if_neg empty).trans ?_
    simp only [raw, r.getElem?_head empty, Option.bind_eq_bind, Option.bind_some, Option.pure_def]

theorem raw_newest (entries : List PendingEntry) :
    r.raw.newest entries = some (r.newest entries) := by
  unfold RawRing.newest newest
  by_cases more : 0 < r.cap ∧ r.cap < entries.length
  · rw [if_pos more, ← suffix?_of_le (Nat.sub_le _ _)]
    exact if_pos more
  · rw [if_neg more]
    exact if_neg more

theorem raw_resetFrom (entries : List PendingEntry) :
    r.raw.resetFrom entries = some (r.resetFrom entries).raw := by
  unfold RawRing.resetFrom
  rw [raw_newest]
  generalize kept : r.newest entries = newest
  have written : ∀ buf : List PendingEntry, newest.length ≤ buf.length →
      (List.range' newest.length ((Slice.overwrite buf 0 newest).length - newest.length)).foldlM
        (fun buf i => store? buf i default) (Slice.overwrite buf 0 newest) =
      some (newest ++ List.replicate (buf.length - newest.length) default) := by
    intro buf room
    have cleared := store?_loop default (buf.drop newest.length) newest
    rw [List.length_drop] at cleared
    rw [Slice.overwrite_front room, List.length_append, List.length_drop, Nat.add_sub_cancel_left]
    exact cleared
  have result : (r.resetFrom entries).raw = { r.raw with
      buf := newest ++ List.replicate (r.buf.length - newest.length) default
      head := 0
      size := newest.length } := by
    rw [← kept]
    rfl
  rw [result]
  by_cases small : r.buf.length < newest.length
  · have made : (if r.raw.buf.length < newest.length then List.replicate newest.length default
        else r.raw.buf) = List.replicate newest.length default := if_pos small
    have all := written (List.replicate newest.length default) (by simp)
    rw [List.length_replicate, Nat.sub_self] at all
    simp only [Option.bind_eq_bind, Option.bind_some, Option.pure_def, made, all]
    rw [Nat.sub_eq_zero_of_le small.le]
  · have same : (if r.raw.buf.length < newest.length then List.replicate newest.length default
        else r.raw.buf) = r.buf := if_neg small
    simp only [Option.bind_eq_bind, Option.bind_some, Option.pure_def, same,
      written r.buf (Nat.le_of_not_lt small)]

end EntryRing

/-! ## Refinement of the queue -/

inductive RingCall where
  | pushBack (e : PendingEntry)
  | popFront
  | peekFront
  | linearize
  | resetFrom (entries : List PendingEntry)

inductive RingAnswer where
  | evicted (e : Option PendingEntry)
  | front (e : Option PendingEntry)
  | entries (es : List PendingEntry)
  | done

namespace RawRing

def call (r : RawRing) : RingCall → Option (RawRing × RingAnswer)
  | .pushBack e => (r.pushBack e).map fun (r, evicted) => (r, .evicted evicted)
  | .popFront => r.popFront.map fun (r, e) => (r, .front e)
  | .peekFront => r.peekFront.map fun e => (r, .front e)
  | .linearize => r.linearize.map fun es => (r, .entries es)
  | .resetFrom entries => (r.resetFrom entries).map fun r => (r, .done)

def run (r : RawRing) : List RingCall → Option (RawRing × List RingAnswer)
  | [] => some (r, [])
  | c :: rest => do
      let (r, answer) ← r.call c
      let (r, answers) ← r.run rest
      return (r, answer :: answers)

end RawRing

namespace FifoQueue

/-- What a first-in first-out queue does with a call; capacity zero means unbounded. -/
def call (capacity : Nat) (queue : List PendingEntry) :
    RingCall → List PendingEntry × RingAnswer
  | .pushBack e =>
      if 0 < capacity ∧ queue.length = capacity then (queue.tail ++ [e], .evicted queue.head?)
      else (queue ++ [e], .evicted none)
  | .popFront => (queue.tail, .front queue.head?)
  | .peekFront => (queue, .front queue.head?)
  | .linearize => (queue, .entries queue)
  | .resetFrom entries => (BoundedQueue.newest capacity entries, .done)

def run (capacity : Nat) (queue : List PendingEntry) :
    List RingCall → List PendingEntry × List RingAnswer
  | [] => (queue, [])
  | c :: rest =>
      let (queue, answer) := call capacity queue c
      let (queue, answers) := run capacity queue rest
      (queue, answer :: answers)

end FifoQueue

namespace EntryRing

theorem push_eq (r : EntryRing) (e : PendingEntry) :
    FifoQueue.call r.cap r.linearize (.pushBack e) =
      ((BoundedQueue.push r.cap r.linearize e).1,
        .evicted (BoundedQueue.push r.cap r.linearize e).2) := by
  have held := r.fits
  by_cases full : BoundedQueue.Full r.cap r.linearize
  · rw [BoundedQueue.push_of_full full]
    exact if_pos ⟨full.1, Nat.le_antisymm (held full.1) full.2⟩
  · rw [BoundedQueue.push_of_room full]
    exact if_neg fun filled => full ⟨filled.1, filled.2.ge⟩

theorem raw_call (r : EntryRing) (c : RingCall) :
    ∃ r' : EntryRing, r'.cap = r.cap ∧
      r.raw.call c = some (r'.raw, (FifoQueue.call r.cap r.linearize c).2) ∧
      r'.linearize = (FifoQueue.call r.cap r.linearize c).1 := by
  cases c with
  | pushBack e =>
    refine ⟨(r.pushBack e).1, r.pushBack_cap e, ?_, ?_⟩
    · rw [push_eq, ← r.pushBack_evicted, RawRing.call, raw_pushBack]
      rfl
    · rw [push_eq, r.pushBack_linearize]
  | popFront =>
    rw [RawRing.call, raw_popFront]
    cases queued : r.linearize with
    | nil =>
      refine ⟨r, rfl, ?_, queued⟩
      rw [popFront_of_empty queued]
      rfl
    | cons oldest rest =>
      obtain ⟨front, left, cap⟩ := popFront_of_cons queued
      refine ⟨r.popFront.1, cap, ?_, left⟩
      rw [front]
      rfl
  | peekFront =>
    refine ⟨r, rfl, ?_, rfl⟩
    rw [RawRing.call, raw_peekFront, peekFront_eq_head?]
    rfl
  | linearize =>
    refine ⟨r, rfl, ?_, rfl⟩
    rw [RawRing.call, raw_linearize]
    rfl
  | resetFrom entries =>
    refine ⟨r.resetFrom entries, rfl, ?_, ?_⟩
    · rw [RawRing.call, raw_resetFrom]
      rfl
    · rw [resetFrom_linearize, newest_eq]
      rfl

theorem raw_run (calls : List RingCall) : ∀ r : EntryRing,
    ∃ r' : EntryRing, r'.cap = r.cap ∧
      r.raw.run calls = some (r'.raw, (FifoQueue.run r.cap r.linearize calls).2) ∧
      r'.linearize = (FifoQueue.run r.cap r.linearize calls).1 := by
  induction calls with
  | nil => exact fun r => ⟨r, rfl, rfl, rfl⟩
  | cons c rest ih =>
    intro r
    obtain ⟨next, cap, called, queue⟩ := r.raw_call c
    obtain ⟨last, cap', ran, queue'⟩ := ih next
    rw [cap, queue] at ran queue'
    refine ⟨last, cap'.trans cap, ?_, queue'⟩
    rw [RawRing.run, called]
    simp only [Option.bind_eq_bind, Option.bind_some, ran, Option.pure_def]
    rfl

end EntryRing

/-- Whatever is called on the ring of a new index, no operation is out of range, and
it answers and holds what the queue of that capacity does. -/
theorem RawRing.refines_queue (maxPerLevel : Int) (calls : List RingCall) :
    ∃ ring, (RawRing.new maxPerLevel).run calls =
        some (ring, (FifoQueue.run maxPerLevel.toNat [] calls).2) ∧
      ring.linearize = some (FifoQueue.run maxPerLevel.toNat [] calls).1 := by
  obtain ⟨ring, -, ran, queue⟩ :=
    ((newPriorityIndex maxPerLevel).levels 0).ring.raw_run calls
  rw [EntryRing.raw_new] at ran
  exact ⟨ring.raw, ran, by rw [ring.raw_linearize, queue]; rfl⟩

end NyaQueue
