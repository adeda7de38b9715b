import Mathlib.Data.Nat.ModEq
import Mathlib.Data.List.Basic

/-!
# The window of a circular buffer

`window buf head size` lists the `size` slots of `buf` that follow `head`,
wrapping around at the end.  The lemmas say what the four elementary buffer
operations do to it: writing the slot behind the window appends, advancing
`head` drops the front, overwriting the front of a full window and advancing
does both, and a window that starts at slot zero is a prefix.  A buffer that is
written slot after slot holds the `Latest` of what was written.
-/

set_option autoImplicit false

namespace CircularBuffer

variable {α : Type} [Inhabited α]

def window (buf : List α) (head size : Nat) : List α :=
  (List.range size).map fun i => buf.getD ((head + i) % buf.length) default

variable (buf : List α) (head size : Nat) (value : α)

@[simp] theorem window_length :
    (window buf head size).length = size := by
  simp [window]

theorem mod_ne {i j len : Nat} (less : i < j) (near : j < i + len) : i % len ≠ j % len := by
  intro equal
  have divides : len ∣ j - i := (Nat.modEq_iff_dvd' less.le).mp equal
  have := Nat.le_of_dvd (by omega) divides
  omega

omit [Inhabited α] in
theorem getD_set_ne (i j : Nat) (value fallback : α) (different : i ≠ j) :
    (buf.set i value).getD j fallback = buf.getD j fallback := by
  simp [List.getD, List.getElem?_set_ne different]

omit [Inhabited α] in
theorem getD_set_self (i : Nat) (value fallback : α) (inside : i < buf.length) :
    (buf.set i value).getD i fallback = value := by
  simp [List.getD, List.getElem?_set_self inside]

theorem window_set_outside (slot : Nat) (value : α)
    (outside : ∀ i, i < size → slot ≠ (head + i) % buf.length) :
    window (buf.set slot value) head size = window buf head size := by
  unfold window
  apply List.map_congr_left
  intro i member
  rw [List.length_set]
  exact getD_set_ne buf _ _ value _ (outside i (List.mem_range.mp member))

theorem window_push (room : size < buf.length) :
    window (buf.set ((head + size) % buf.length) value) head (size + 1) =
      window buf head size ++ [value] := by
  have front : window (buf.set ((head + size) % buf.length) value) head size =
      window buf head size := by
    apply window_set_outside
    intro i less
    exact (mod_ne (by omega) (by omega)).symm
  have inside : (head + size) % buf.length < buf.length := Nat.mod_lt _ (by omega)
  rw [← front]
  simp only [window, List.range_succ, List.map_append, List.map_singleton, List.length_set]
  rw [getD_set_self buf _ value _ inside]

theorem window_pop (inside : head < buf.length) :
    window buf head (size + 1) =
      buf.getD head default :: window buf ((head + 1) % buf.length) size := by
  have front : (head + 0) % buf.length = head := Nat.mod_eq_of_lt inside
  simp only [window, List.range_succ_eq_map, List.map_cons, List.map_map, front]
  congr 1
  apply List.map_congr_left
  intro i _
  simp only [Function.comp, Nat.mod_add_mod, Nat.succ_eq_add_one]
  congr 2
  omega

theorem window_clear (inside : head < buf.length) (room : size < buf.length) :
    window (buf.set head value) ((head + 1) % buf.length) size =
      window buf ((head + 1) % buf.length) size := by
  apply window_set_outside
  intro i less equal
  have shifted : ((head + 1) % buf.length + i) % buf.length = (head + (i + 1)) % buf.length := by
    rw [Nat.mod_add_mod]
    congr 1
    omega
  rw [shifted] at equal
  have front : (head + 0) % buf.length = head := Nat.mod_eq_of_lt inside
  exact mod_ne (by omega) (by omega) (front.trans equal)

theorem window_rotate (inside : head < buf.length) :
    window (buf.set head value) ((head + 1) % buf.length) buf.length =
      (window buf head buf.length).tail ++ [value] := by
  obtain ⟨size, full⟩ : ∃ size, buf.length = size + 1 := ⟨buf.length - 1, by omega⟩
  have slot : ((head + 1) % buf.length + size) % buf.length = head := by
    rw [Nat.mod_add_mod, full]
    have : head + 1 + size = head + (size + 1) := by omega
    rw [this, Nat.add_mod_right, Nat.mod_eq_of_lt (by omega)]
  have pushed := window_push buf ((head + 1) % buf.length) size value (by omega)
  have popped := window_pop buf head size inside
  rw [slot] at pushed
  have popped' : window buf head buf.length =
      buf.getD head default :: window buf ((head + 1) % buf.length) size := by
    rw [← popped, full]
  rw [popped', List.tail_cons, ← pushed, ← full]

theorem window_front (front rest : List α) :
    window (front ++ rest) 0 front.length = front := by
  apply List.ext_getElem?
  intro i
  by_cases inside : i < front.length
  · simp [window, inside, List.getD, List.getElem?_append_left inside,
      Nat.mod_eq_of_lt (show i < front.length + rest.length by omega)]
  · rw [List.getElem?_eq_none (by simpa using inside), List.getElem?_eq_none (by omega)]

theorem window_full (inside : head < buf.length) :
    window buf head buf.length = buf.drop head ++ buf.take head := by
  apply List.ext_getElem
  · simp
    omega
  · intro i small _
    rw [window_length] at small
    simp only [window, List.getElem_map, List.getElem_range, List.getElem_append, List.length_drop,
      List.getElem_drop, List.getElem_take]
    split
    · rename_i first
      rw [Nat.mod_eq_of_lt (by omega), List.getD, List.getElem?_eq_getElem (by omega)]
      rfl
    · rename_i second
      have wrapped : (head + i) % buf.length = i - (buf.length - head) := by
        rw [Nat.mod_eq_sub_mod (by omega), Nat.mod_eq_of_lt (by omega)]
        omega
      rw [wrapped, List.getD, List.getElem?_eq_getElem (by omega)]
      rfl

/-- The slots hold the last of the values that were pushed, each in the slot behind
that of the value before it. -/
def Latest (buf pushed : List α) : Prop :=
  window buf ((pushed.length - buf.length) % buf.length) (min pushed.length buf.length) =
    pushed.drop (pushed.length - buf.length)

theorem latest_nil : Latest buf [] := by
  simp [Latest, window]

variable {buf pushed : List α}

theorem latest_iff : Latest buf pushed ↔
    ∀ k, pushed.length ≤ k + buf.length → k < pushed.length →
      buf[k % buf.length]? = pushed[k]? := by
  have slot : ∀ i, i < min pushed.length buf.length →
      (window buf ((pushed.length - buf.length) % buf.length)
        (min pushed.length buf.length))[i]? =
      buf[(pushed.length - buf.length + i) % buf.length]? := by
    intro i inside
    have valid : (pushed.length - buf.length + i) % buf.length < buf.length :=
      Nat.mod_lt _ (by omega)
    rw [window, List.getElem?_map, List.getElem?_range inside, Option.map_some, Nat.mod_add_mod,
      List.getD, List.getElem?_eq_getElem valid]
    rfl
  constructor
  · intro latest k recent inside
    have at_k := slot (k - (pushed.length - buf.length)) (by omega)
    have position : pushed.length - buf.length + (k - (pushed.length - buf.length)) = k := by omega
    rw [latest, List.getElem?_drop, position] at at_k
    exact at_k.symm
  · intro each
    apply List.ext_getElem?
    intro i
    by_cases inside : i < min pushed.length buf.length
    · rw [slot i inside, List.getElem?_drop]
      exact each _ (by omega) (by omega)
    · rw [List.getElem?_eq_none (by rw [window_length]; omega),
        List.getElem?_eq_none (by rw [List.length_drop]; omega)]

theorem Latest.exists_last (latest : Latest buf pushed) {slot : Nat}
    (inside : slot < min pushed.length buf.length) :
    ∃ k < pushed.length, k % buf.length = slot ∧ buf[slot]? = pushed[k]? ∧
      ∀ j < pushed.length, j % buf.length = slot → j ≤ k := by
  have rest := Nat.mod_lt (pushed.length - 1 - slot) (show 0 < buf.length by omega)
  have whole := Nat.div_add_mod (pushed.length - 1 - slot) buf.length
  generalize (pushed.length - 1 - slot) % buf.length = left at rest whole
  generalize (pushed.length - 1 - slot) / buf.length = rounds at whole
  have turn : (slot + buf.length * rounds) % buf.length = slot := by
    rw [Nat.add_mul_mod_self_left, Nat.mod_eq_of_lt (by omega)]
  have recent : pushed.length ≤ slot + buf.length * rounds + buf.length := by omega
  have old : slot + buf.length * rounds < pushed.length := by omega
  generalize slot + buf.length * rounds = k at turn recent old
  refine ⟨k, old, turn, ?_, ?_⟩
  · have held := latest_iff.mp latest k recent old
    rwa [turn] at held
  · intro j valid same
    by_contra later
    exact mod_ne (by omega) (by omega) (turn.trans same.symm)

theorem Latest.push (latest : Latest buf pushed) (value : α) :
    Latest (buf.set (pushed.length % buf.length) value) (pushed ++ [value]) := by
  rw [latest_iff] at latest ⊢
  rw [List.length_set, List.length_append, List.length_singleton]
  intro k recent inside
  by_cases last : k = pushed.length
  · subst last
    rw [List.getElem?_set_self (Nat.mod_lt _ (by omega)), List.getElem?_concat_length]
  · have other : k % buf.length ≠ pushed.length % buf.length := mod_ne (by omega) (by omega)
    rw [List.getElem?_set_ne other.symm, List.getElem?_append_left (by omega)]
    exact latest k (by omega) (by omega)

theorem Latest.take (latest : Latest buf pushed) (early : pushed.length ≤ buf.length) :
    buf.take pushed.length = pushed := by
  have front := window_front (buf.take pushed.length) (buf.drop pushed.length)
  rw [List.take_append_drop, List.length_take, Nat.min_eq_left early] at front
  rw [Latest, Nat.sub_eq_zero_of_le early, Nat.zero_mod, Nat.min_eq_left early, front,
    List.drop_zero] at latest
  exact latest

/-- Later they are read in two pieces: from the slot that is written next to the end,
and the rest from the front. -/
theorem Latest.take_pieces (latest : Latest buf pushed) (positive : 0 < buf.length)
    (late : buf.length ≤ pushed.length) {start tail n : Nat}
    (next : start = pushed.length % buf.length) (first : tail = min (buf.length - start) n)
    (held : n ≤ buf.length) :
    (buf.drop start).take tail ++ buf.take (n - tail) =
      (pushed.drop (pushed.length - buf.length)).take n := by
  have inside : start < buf.length := by
    rw [next]
    exact Nat.mod_lt _ positive
  rw [Latest, ← Nat.mod_eq_sub_mod late, ← next, Nat.min_eq_right late,
    window_full _ _ inside] at latest
  rw [← latest, List.take_append, List.length_drop, List.take_take]
  rcases Nat.lt_or_ge n (buf.length - start) with short | long
  · have none : n - (buf.length - start) = 0 := by omega
    have same : tail = n := by omega
    rw [same, none, Nat.sub_self, Nat.zero_min]
  · have whole : ∀ m, buf.length - start ≤ m → (buf.drop start).take m = buf.drop start :=
      fun m enough => List.take_of_length_le (by rw [List.length_drop]; exact enough)
    have same : tail = buf.length - start := by omega
    rw [whole tail (by omega), whole n long, same, Nat.min_eq_left (by omega)]

end CircularBuffer
