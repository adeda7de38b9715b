import NyaQueue.LoadPredictor
import NyaQueue.Lib.Checked
import NyaQueue.Lib.Counter
import NyaQueue.Lib.Slice

/-!
# Reading a time series back

`RingBuffer` of `pkg/broker/load_predictor.go` with its counter of 64 bits and with
slices that can go out of range, for values of any kind.  As long as the counter has
not wrapped around nothing does go out of range, and what is copied out in one or
two pieces is the last of what was pushed, oldest first.  The ring that the load
predictor works with is this one.
-/

set_option autoImplicit false

namespace NyaQueue

open CircularBuffer Checked Counter

/-- `RingBuffer`, with nothing known about its fields. -/
structure RawRingBuffer (α : Type) where
  data : List α
  writeIdx : Int64

namespace RawRingBuffer

variable {α : Type} [Inhabited α]

/-- `NewRingBuffer` -/
def new (size : Nat) : RawRingBuffer α := ⟨List.replicate size default, 0⟩

def push (rb : RawRingBuffer α) (v : α) : Option (RawRingBuffer α) := do
  let slot ← slot? rb.writeIdx rb.data.length
  let data ← store? rb.data slot v
  return ⟨data, rb.writeIdx + 1⟩

/-- The second copy of `copyInto`, into `dst[tail:]`. -/
def copyRest (rb : RawRingBuffer α) (dst : List α) (tail n : Nat) : Option (List α) :=
  if tail < n then do
    let rest ← suffix? dst tail
    let src ← slice? rb.data 0 (n - tail)
    return dst.take tail ++ Slice.overwrite rest 0 src
  else some dst

def copyInto (rb : RawRingBuffer α) (dst : List α) (w size n : Nat) : Option (List α) :=
  if w ≤ size then do
    let src ← slice? rb.data 0 n
    return Slice.overwrite dst 0 src
  else do
    let start ← mod? w size
    let tail := if n < size - start then n else size - start
    let src ← slice? rb.data start (start + tail)
    rb.copyRest (Slice.overwrite dst 0 src) tail n

/-- The counter, as a number of values; a negative one stops `Values` at `make` and
`ValuesInto` at `dst[:n]`. -/
def written (rb : RawRingBuffer α) : Option Nat :=
  if rb.writeIdx.toInt < 0 then none else some rb.writeIdx.toInt.toNat

def values (rb : RawRingBuffer α) : Option (List α) := do
  let w ← rb.written
  let size := rb.data.length
  if w = 0 then some []
  else
    let n := if size < w then size else w
    rb.copyInto (List.replicate n default) w size n

/-- What `dst` holds afterwards, and the number returned. -/
def valuesInto (rb : RawRingBuffer α) (dst : List α) : Option (List α × Nat) := do
  let w ← rb.written
  let size := rb.data.length
  if w = 0 then some (dst, 0)
  else
    let n := if size < w then size else w
    let n := if dst.length < n then dst.length else n
    let front ← slice? dst 0 n
    let front ← rb.copyInto front w size n
    return (front ++ dst.drop n, n)

/-- The ring after `pushed`: the counter counts them, and the slots hold the last. -/
structure After (rb : RawRingBuffer α) (pushed : List α) : Prop where
  nonempty : 0 < rb.data.length
  counted : rb.writeIdx = Int64.ofNat pushed.length
  latest : Latest rb.data pushed

theorem after_new {size : Nat} (positive : 1 ≤ size) : (new size : RawRingBuffer α).After [] :=
  ⟨by rw [new, List.length_replicate]; exact positive, rfl, latest_nil _⟩

variable {rb : RawRingBuffer α} {pushed : List α}

theorem After.push (after : rb.After pushed) (few : pushed.length < 2 ^ 63) (v : α) :
    ∃ rb', rb.push v = some rb' ∧ rb'.data.length = rb.data.length ∧ rb'.After (pushed ++ [v]) := by
  have slot := slot?_of_lt few after.nonempty
  have inside : pushed.length % rb.data.length < rb.data.length := Nat.mod_lt _ after.nonempty
  refine ⟨⟨rb.data.set (pushed.length % rb.data.length) v, rb.writeIdx + 1⟩, ?_,
    List.length_set, ?_, ?_, after.latest.push v⟩
  · simp only [RawRingBuffer.push, after.counted, slot, store?_of_lt inside,
      Option.bind_eq_bind, Option.bind_some, Option.pure_def]
  · rw [List.length_set]
    exact after.nonempty
  · rw [after.counted, List.length_append, List.length_singleton, ofNat_succ]

theorem After.pushAll (values : List α) : ∀ {rb : RawRingBuffer α} {pushed : List α},
    rb.After pushed → pushed.length + values.length < 2 ^ 63 →
    ∃ rb', values.foldlM RawRingBuffer.push rb = some rb' ∧
      rb'.data.length = rb.data.length ∧ rb'.After (pushed ++ values) := by
  induction values with
  | nil =>
    intro rb pushed after _
    exact ⟨rb, rfl, rfl, by rwa [List.append_nil]⟩
  | cons v rest ih =>
    intro rb pushed after few
    rw [List.length_cons] at few
    obtain ⟨next, stepped, size, after'⟩ := after.push (by omega) v
    obtain ⟨last, ran, size', after''⟩ := ih after'
      (by rw [List.length_append, List.length_singleton]; omega)
    refine ⟨last, ?_, size'.trans size, ?_⟩
    · rw [List.foldlM_cons, stepped]
      exact ran
    · rwa [List.append_assoc, List.singleton_append] at after''

theorem After.written (after : rb.After pushed) (few : pushed.length < 2 ^ 63) :
    rb.written = some pushed.length := by
  have counted := Int64.toInt_ofNat_of_lt few
  rw [RawRingBuffer.written, after.counted, counted, if_neg (by omega), Int.toNat_natCast]

omit [Inhabited α] in
theorem copyRest_eq (rb : RawRingBuffer α) {dst : List α} (first : List α) {n : Nat}
    (room : dst.length = n) (inside : first.length ≤ n) (held : n - first.length ≤ rb.data.length) :
    rb.copyRest (Slice.overwrite dst 0 first) first.length n =
      some (first ++ rb.data.take (n - first.length)) := by
  rw [Slice.overwrite_front (by omega), copyRest]
  by_cases more : first.length < n
  · have src : (rb.data.take (n - first.length)).length = (dst.drop first.length).length := by
      rw [List.length_take, List.length_drop]
      omega
    rw [if_pos more, suffix?_of_le (by simp), slice?_of_le (Nat.zero_le _) held, List.drop_left,
      List.take_left, List.drop_zero, Nat.sub_zero]
    simp only [Option.bind_eq_bind, Option.bind_some, Option.pure_def, Slice.overwrite_all src]
  · rw [if_neg more, List.drop_of_length_le (by omega), Nat.sub_eq_zero_of_le (by omega),
      List.take_zero]

theorem After.copyInto (after : rb.After pushed) {dst : List α} {n : Nat} (room : dst.length = n)
    (held : n ≤ min pushed.length rb.data.length) :
    rb.copyInto dst pushed.length rb.data.length n =
      some ((pushed.drop (pushed.length - rb.data.length)).take n) := by
  unfold RawRingBuffer.copyInto
  by_cases early : pushed.length ≤ rb.data.length
  · have front := after.latest.take early
    have src : (rb.data.take n).length = dst.length := by
      rw [List.length_take]
      omega
    rw [if_pos early, slice?_of_le (Nat.zero_le n) (by omega), Nat.sub_eq_zero_of_le early,
      List.drop_zero, List.drop_zero, Nat.sub_zero, ← front, List.take_take,
      Nat.min_eq_left (by omega)]
    simp only [Option.bind_eq_bind, Option.bind_some, Option.pure_def, Slice.overwrite_all src]
  · generalize at_start : pushed.length % rb.data.length = start
    have inside : start < rb.data.length := by
      rw [← at_start]
      exact Nat.mod_lt _ after.nonempty
    generalize until_end : (if n < rb.data.length - start then n else rb.data.length - start) = tail
    have first : tail = min (rb.data.length - start) n := by
      split at until_end <;> omega
    have pieces := after.latest.take_pieces after.nonempty (by omega) at_start.symm first (by omega)
    have length : ((rb.data.drop start).take tail).length = tail := by
      rw [List.length_take, List.length_drop]
      omega
    have rest := rb.copyRest_eq ((rb.data.drop start).take tail) room (by omega) (by omega)
    rw [length] at rest
    rw [if_neg early, mod?_of_pos _ after.nonempty, at_start, ← pieces]
    simp only [Option.bind_eq_bind, Option.bind_some, until_end]
    rw [slice?_of_le (by omega) (by omega), Nat.add_sub_cancel_left]
    exact rest

theorem After.values (after : rb.After pushed) (few : pushed.length < 2 ^ 63) :
    rb.values = some (pushed.drop (pushed.length - rb.data.length)) := by
  unfold RawRingBuffer.values
  rw [after.written few, Option.bind_eq_bind, Option.bind_some]
  by_cases empty : pushed.length = 0
  · rw [if_pos empty, List.length_eq_zero_iff.mp empty, List.drop_nil]
  · have count : (if rb.data.length < pushed.length then rb.data.length else pushed.length) =
        min pushed.length rb.data.length := by
      split <;> omega
    have all : (pushed.drop (pushed.length - rb.data.length)).length ≤
        min pushed.length rb.data.length := by
      rw [List.length_drop]
      omega
    rw [if_neg empty]
    simp only [count]
    rw [after.copyInto List.length_replicate le_rfl, List.take_of_length_le all]

theorem After.valuesInto (after : rb.After pushed) (few : pushed.length < 2 ^ 63) (dst : List α) :
    rb.valuesInto dst =
      some ((pushed.drop (pushed.length - rb.data.length)).take dst.length ++
          dst.drop (min pushed.length rb.data.length),
        min (min pushed.length rb.data.length) dst.length) := by
  unfold RawRingBuffer.valuesInto
  rw [after.written few, Option.bind_eq_bind, Option.bind_some]
  by_cases empty : pushed.length = 0
  · rw [if_pos empty, List.length_eq_zero_iff.mp empty]
    simp
  · have count : (if rb.data.length < pushed.length then rb.data.length else pushed.length) =
        min pushed.length rb.data.length := by
      split <;> omega
    have fitting : ∀ m, (if dst.length < m then dst.length else m) = min m dst.length := by
      intro m
      split <;> omega
    rw [if_neg empty]
    simp only [count, fitting]
    generalize number : min (min pushed.length rb.data.length) dst.length = n
    have room : (dst.take n).length = n := by
      rw [List.length_take]
      omega
    have same : (pushed.drop (pushed.length - rb.data.length)).take dst.length =
        (pushed.drop (pushed.length - rb.data.length)).take n := by
      apply List.take_eq_take_iff.mpr
      rw [List.length_drop]
      omega
    have behind : dst.drop (min pushed.length rb.data.length) = dst.drop n := by
      apply List.drop_eq_drop_iff.mpr
      omega
    rw [slice?_of_le (Nat.zero_le n) (by omega), List.drop_zero, Nat.sub_zero, same, behind]
    simp only [Option.bind_eq_bind, Option.bind_some, after.copyInto room (by omega),
      Option.pure_def]

/-- Whatever is pushed, fewer than `2 ^ 63` values, the ring returns the last of them
in order, and copies them to the front of a slice that is large enough. -/
theorem values_latest (size : Nat) (positive : 1 ≤ size) (pushed : List α)
    (few : pushed.length < 2 ^ 63) :
    ∃ rb : RawRingBuffer α, pushed.foldlM push (new size) = some rb ∧
      rb.values = some (pushed.rtake (min size pushed.length)) ∧
      ∀ dst, size ≤ dst.length → rb.valuesInto dst =
        some (pushed.rtake (min size pushed.length) ++ dst.drop (min size pushed.length),
          min size pushed.length) := by
  obtain ⟨rb, ran, length, after⟩ := (after_new positive).pushAll pushed (by simpa using few)
  rw [List.nil_append] at after
  rw [new, List.length_replicate] at length
  have last : pushed.drop (pushed.length - rb.data.length) =
      pushed.rtake (min size pushed.length) := by
    rw [List.rtake, length]
    congr 1
    omega
  refine ⟨rb, ran, ?_, ?_⟩
  · rw [after.values few, last]
  · intro dst room
    have number : min (min pushed.length rb.data.length) dst.length = min size pushed.length := by
      omega
    have all : (pushed.rtake (min size pushed.length)).length ≤ dst.length := by
      rw [← last, List.length_drop]
      omega
    rw [after.valuesInto few, last, number, List.take_of_length_le all, length,
      Nat.min_comm pushed.length]

/-- Three slots and five values. -/
theorem values_latest_three :
    ([1, 2, 3, 4, 5].foldlM push (new 3 : RawRingBuffer Nat)).bind values = some [3, 4, 5] ∧
    ∃ rb : RawRingBuffer Nat, [1, 2, 3, 4, 5].foldlM push (new 3) = some rb ∧
      rb.valuesInto [0, 0, 0, 0] = some ([3, 4, 5, 0], 3) := by
  refine ⟨by decide, ?_⟩
  obtain ⟨rb, ran, -, copied⟩ := values_latest 3 (by decide) [1, 2, 3, 4, 5] (by decide)
  exact ⟨rb, ran, copied [0, 0, 0, 0] (by decide)⟩

end RawRingBuffer

/-! ## The ring of the load predictor -/

namespace RingBuffer

def raw (rb : RingBuffer) : RawRingBuffer Rat := ⟨rb.data, Int64.ofNat rb.writeIdx⟩

theorem Holds.raw {rb : RingBuffer} {pushed : List Rat} (holds : rb.Holds pushed) :
    rb.raw.After pushed :=
  ⟨rb.nonempty, congrArg Int64.ofNat holds.written, holds.latest⟩

theorem raw_push (rb : RingBuffer) (few : rb.writeIdx < 2 ^ 63) (v : Rat) :
    rb.raw.push v = some (rb.push v).raw := by
  have inside : rb.writeIdx % rb.data.length < rb.data.length := Nat.mod_lt _ rb.nonempty
  simp only [RawRingBuffer.push, RingBuffer.raw, slot?_of_lt few rb.nonempty,
    store?_of_lt inside, Option.bind_eq_bind, Option.bind_some, Option.pure_def, push, ofNat_succ]

theorem Holds.raw_valuesInto {rb : RingBuffer} {pushed : List Rat} (holds : rb.Holds pushed)
    (few : pushed.length < 2 ^ 63) (dst : List Rat) :
    rb.raw.valuesInto dst =
      some (rb.valuesInto dst.length ++ dst.drop (min rb.writeIdx rb.data.length),
        min (min rb.writeIdx rb.data.length) dst.length) := by
  rw [holds.raw.valuesInto few, holds.valuesInto_room, holds.written]
  rfl

end RingBuffer

end NyaQueue
