import NyaQueue.LoadPredictor
import NyaQueue.Lib.Toeplitz
import Mathlib.Data.List.GetD
import Mathlib.Tactic.FieldSimp

/-!
# The coefficients of the autoregression

`yuleWalker` runs the Levinson–Durbin recursion in place: the coefficients live in
a buffer of the predictor with whatever an earlier call has left in it, and a copy
of the buffer is what a round reads while it overwrites it.  The rounds are those
of the recursion on lists, no divisor is zero, and every round's coefficients solve
the Yule–Walker equations of their order.
-/

set_option autoImplicit false

namespace NyaQueue.Autoregression

/-! ## The recursion in place -/

/-- `x / y`, or nothing where `y` is zero. -/
def div? (x y : Rat) : Option Rat := if y = 0 then none else some (x / y)

/-- The loop over `j < m` that rewrites the coefficients from their copy. -/
def rewriteFrom (aOld : List Rat) (m : Nat) (k : Rat) (a : List Rat) : List Rat :=
  (List.range m).foldl (fun a j => a.set j (aOld.getD j 0 - k * aOld.getD (m - 1 - j) 0)) a

/-- The loop over `m`, with `left` rounds left; `copy(aOld, a)` copies all of `a`. -/
def levinsonInPlace (r : Nat → Rat) : Nat → Nat → List Rat → Rat → Option (List Rat)
  | 0, _, a, _ => some a
  | left + 1, m, a, e =>
      if e < tiny then some (a.take m)
      else
        let sum := (List.range m).foldl (fun sum j => sum - a.getD j 0 * r (m - j)) (r (m + 1))
        match div? sum e with
        | none => none
        | some k =>
            levinsonInPlace r left (m + 1) (rewriteFrom a m k (a.set m k)) (e * (1 - k * k))

/-- `yuleWalker`, or nothing where it would divide by zero; `coeffBuf` has what
earlier calls have left. -/
def yuleWalkerInPlace (coeffBuf vals : List Rat) (mean : Rat) (p : Nat) :
    Option (Option (List Rat)) :=
  if vals.length = 0 then none
  else
    let r := autocovariance vals mean
    if r 0 < tiny then some none
    else
      let a := if coeffBuf.length < p then List.replicate p 0 else coeffBuf.take p
      match div? (r 1) (r 0) with
      | none => none
      | some first =>
          (levinsonInPlace r (p - 1) 1 (a.set 0 first) (r 0 * (1 - first * first))).map some

/-! ## Lists as sequences -/

/-- The coefficients as a sequence. -/
def coeff (a : List Rat) (j : Nat) : Rat := a.getD j 0

theorem ext_coeff {a b : List Rat} (size : a.length = b.length)
    (same : ∀ j < a.length, coeff a j = coeff b j) : a = b := by
  refine List.ext_getElem size fun j inside inside' => ?_
  have equal := same j inside
  rwa [coeff, coeff, List.getD_eq_getElem _ _ inside, List.getD_eq_getElem _ _ inside'] at equal

theorem coeff_take {a : List Rat} {m j : Nat} (inside : j < m) :
    coeff (a.take m) j = coeff a j := by
  simp only [coeff, List.getD_eq_getElem?_getD, List.getElem?_take_of_lt inside]

theorem sum_mapIdx (f : Nat → Rat → Rat) (a : List Rat) :
    (a.mapIdx f).sum = ∑ j ∈ Finset.range a.length, f j (coeff a j) := by
  induction a generalizing f with
  | nil => rfl
  | cons x rest ih =>
    rw [List.mapIdx_cons, List.sum_cons, ih, List.length_cons, Finset.sum_range_succ']
    exact add_comm _ _

theorem foldl_sub (f : Nat → Rat) (start : Rat) (n : Nat) :
    (List.range n).foldl (fun sum j => sum - f j) start =
      start - ∑ j ∈ Finset.range n, f j := by
  induction n with
  | zero => simp
  | succ n ih =>
    rw [List.range_succ, List.foldl_concat, ih, Finset.sum_range_succ]
    ring

theorem foldl_set (f : Nat → Rat) (a : List Rat) (n : Nat) (room : n ≤ a.length) :
    ((List.range n).foldl (fun a j => a.set j (f j)) a).length = a.length ∧
    ∀ i < a.length, coeff ((List.range n).foldl (fun a j => a.set j (f j)) a) i =
      if i < n then f i else coeff a i := by
  induction n with
  | zero => exact ⟨rfl, fun i _ => rfl⟩
  | succ n ih =>
    obtain ⟨size, before⟩ := ih (Nat.le_of_succ_le room)
    rw [List.range_succ, List.foldl_concat]
    refine ⟨(List.length_set ..).trans size, fun i inside => ?_⟩
    have old := before i inside
    unfold coeff at old ⊢
    rw [List.getD_eq_getElem?_getD, List.getElem?_set, size]
    by_cases last : n = i
    · subst last
      rw [if_pos rfl, if_pos inside, if_pos (Nat.lt_succ_self n)]
      rfl
    · rw [if_neg last, ← List.getD_eq_getElem?_getD, old]
      congr 1
      exact propext (by omega)

/-! ## One round -/

/-- The round on lists: what `levinson` goes on with. -/
def grow (k : Rat) (a : List Rat) : List Rat :=
  List.zipWith (fun x y => x - k * y) a a.reverse ++ [k]

theorem length_grow (k : Rat) (a : List Rat) : (grow k a).length = a.length + 1 := by
  simp [grow]

theorem coeff_grow (k : Rat) (a : List Rat) {j : Nat} (inside : j < a.length + 1) :
    coeff (grow k a) j = Toeplitz.extend (coeff a) a.length k j := by
  unfold coeff grow Toeplitz.extend
  by_cases old : j < a.length
  · rw [if_pos old, List.getD_append _ _ _ _ (by simpa using old),
      List.getD_eq_getElem _ _ (by simpa using old), List.getElem_zipWith, List.getElem_reverse,
      ← List.getD_eq_getElem a 0 old, ← List.getD_eq_getElem a 0 (by omega)]
  · have new : j = a.length := by omega
    rw [if_neg old, List.getD_append_right _ _ _ _ (by simp [new])]
    simp [new]

theorem take_rewriteFrom (k : Rat) {a : List Rat} {m : Nat} (room : m < a.length) :
    (rewriteFrom a m k (a.set m k)).length = a.length ∧
      (rewriteFrom a m k (a.set m k)).take (m + 1) = grow k (a.take m) := by
  have size : (a.take m).length = m := List.length_take_of_le room.le
  obtain ⟨kept, written⟩ := foldl_set
    (fun j => a.getD j 0 - k * a.getD (m - 1 - j) 0) (a.set m k) m (by simpa using room.le)
  rw [List.length_set] at kept written
  refine ⟨kept, ext_coeff ?_ fun j inside => ?_⟩
  · rw [List.length_take_of_le (by rw [rewriteFrom, kept]; exact room), length_grow, size]
  · rw [List.length_take_of_le (by rw [rewriteFrom, kept]; exact room)] at inside
    rw [coeff_take inside, coeff_grow k _ (by omega), size, rewriteFrom, written j (by omega)]
    unfold Toeplitz.extend
    by_cases old : j < m
    · rw [if_pos old, if_pos old, coeff_take old, coeff_take (by omega)]
      rfl
    · have new : j = m := by omega
      subst new
      rw [if_neg old, if_neg old]
      simp [coeff, room]

theorem tiny_pos : 0 < tiny := by
  unfold tiny
  norm_num

theorem div?_of_pos {x y : Rat} (positive : 0 < y) : div? x y = some (x / y) :=
  if_neg positive.ne'

/-! ## The whole recursion -/

theorem levinsonInPlace_eq (r : Nat → Rat) (left : Nat) : ∀ (m : Nat) (a : List Rat) (e : Rat),
    a.length = m + left →
      levinsonInPlace r left m a e = some (levinson r left (a.take m) e) := by
  induction left with
  | zero =>
    intro m a e size
    rw [levinsonInPlace, levinson, List.take_of_length_le (by omega)]
  | succ left ih =>
    intro m a e size
    have short : (a.take m).length = m := List.length_take_of_le (by omega)
    rw [levinsonInPlace, levinson]
    split
    · rfl
    · rename_i large
      have positive : 0 < e := lt_of_lt_of_le tiny_pos (not_lt.mp large)
      have sums : (List.range m).foldl (fun sum j => sum - a.getD j 0 * r (m - j)) (r (m + 1)) =
          r (m + 1) - ((a.take m).mapIdx fun j x => x * r (m - j)).sum := by
        rw [foldl_sub (fun j => a.getD j 0 * r (m - j)), sum_mapIdx, short]
        congr 1
        refine Finset.sum_congr rfl fun j member => ?_
        rw [coeff_take (Finset.mem_range.mp member)]
        rfl
      dsimp only
      rw [div?_of_pos positive, sums, short]
      dsimp only
      obtain ⟨kept, round⟩ := take_rewriteFrom
        ((r (m + 1) - ((a.take m).mapIdx fun j x => x * r (m - j)).sum) / e)
        (a := a) (m := m) (by omega)
      rw [ih (m + 1) _ _ (by rw [kept]; omega), round]
      rfl

/-- Each round keeps the equations solved and `e` the error of the solution. -/
theorem levinson_solves (r : Nat → Rat) (left : Nat) : ∀ (a : List Rat) (e : Rat),
    Toeplitz.Solves r (coeff a) a.length → e = Toeplitz.error r (coeff a) a.length →
      Toeplitz.Solves r (coeff (levinson r left a e)) (levinson r left a e).length ∧
      a.length ≤ (levinson r left a e).length ∧
      (levinson r left a e).length ≤ a.length + left := by
  induction left with
  | zero => intro a e solves _; exact ⟨solves, Nat.le_refl _, Nat.le_refl _⟩
  | succ left ih =>
    intro a e solves remaining
    rw [levinson]
    split
    · exact ⟨solves, Nat.le_refl _, Nat.le_add_right _ _⟩
    · rename_i large
      have nonzero : e ≠ 0 := (lt_of_lt_of_le tiny_pos (not_lt.mp large)).ne'
      have defects : r (a.length + 1) - (a.mapIdx fun j x => x * r (a.length - j)).sum =
          Toeplitz.defect r (coeff a) a.length := by
        rw [sum_mapIdx]
        rfl
      dsimp only
      rw [defects]
      generalize chosen : Toeplitz.defect r (coeff a) a.length / e = k
      have ratio : k * Toeplitz.error r (coeff a) a.length =
          Toeplitz.defect r (coeff a) a.length := by
        rw [← chosen, ← remaining, div_mul_cancel₀ _ nonzero]
      have agree : ∀ j < a.length + 1,
          Toeplitz.extend (coeff a) a.length k j = coeff (grow k a) j :=
        fun j inside => (coeff_grow k a inside).symm
      have next := ih (grow k a) (e * (1 - k * k))
        (by rw [length_grow]
            exact (solves.extend ratio).congr agree)
        (by rw [length_grow, ← Toeplitz.error_congr agree, Toeplitz.error_extend ratio, remaining])
      rw [length_grow] at next
      obtain ⟨solved, longer, bounded⟩ := next
      refine ⟨solved, Nat.le_of_succ_le longer, bounded.trans ?_⟩
      omega

theorem solves_first {r : Nat → Rat} (nonzero : r 0 ≠ 0) :
    Toeplitz.Solves r (coeff [r 1 / r 0]) 1 ∧
      r 0 * (1 - r 1 / r 0 * (r 1 / r 0)) = Toeplitz.error r (coeff [r 1 / r 0]) 1 := by
  constructor
  · intro i inside
    have only : i = 0 := by omega
    subst only
    rw [Finset.sum_range_one]
    exact div_mul_cancel₀ _ nonzero
  · unfold Toeplitz.error
    rw [Finset.sum_range_one]
    simp only [coeff, List.getD_cons_zero, zero_add]
    field_simp

/-- Whatever the coefficient buffer holds, no divisor is zero; the result is nil
exactly for a variance below the limit, and otherwise it solves the Yule–Walker
equations of its order. -/
theorem yuleWalker_solves (coeffBuf vals : List Rat) (mean : Rat) {p : Nat} (positive : 1 ≤ p)
    (enough : p < vals.length) :
    ∃ result, yuleWalkerInPlace coeffBuf vals mean p = some result ∧
      result = yuleWalker vals mean p ∧
      (result = none ↔ autocovariance vals mean 0 < tiny) ∧
      ∀ a, result = some a → 1 ≤ a.length ∧ a.length ≤ p ∧
        ∀ i < a.length, ∑ j ∈ Finset.range a.length,
          a.getD j 0 * autocovariance vals mean ((i : Int) - j).natAbs =
            autocovariance vals mean (i + 1) := by
  have some_value : ¬ vals.length = 0 := by omega
  unfold yuleWalkerInPlace yuleWalker
  rw [if_neg some_value]
  dsimp only
  by_cases flat : autocovariance vals mean 0 < tiny
  · rw [if_pos flat, if_pos flat]
    refine ⟨none, rfl, rfl, ⟨fun _ => flat, fun _ => rfl⟩, ?_⟩
    intro a impossible
    cases impossible
  · have variance : 0 < autocovariance vals mean 0 := lt_of_lt_of_le tiny_pos (not_lt.mp flat)
    obtain ⟨solves, remaining⟩ := solves_first variance.ne'
    have buffer : (if coeffBuf.length < p then List.replicate p 0 else coeffBuf.take p).length =
        1 + (p - 1) := by
      split
      · rw [List.length_replicate]
        omega
      · rw [List.length_take]
        omega
    generalize (if coeffBuf.length < p then List.replicate p 0 else coeffBuf.take p) = a at buffer
    have started : (a.set 0 (autocovariance vals mean 1 / autocovariance vals mean 0)).take 1 =
        [autocovariance vals mean 1 / autocovariance vals mean 0] := by
      cases a with
      | nil =>
          rw [List.length_nil] at buffer
          omega
      | cons x rest => rfl
    rw [if_neg flat, if_neg flat, div?_of_pos variance]
    dsimp only
    rw [levinsonInPlace_eq _ _ _ _ _ ((List.length_set ..).trans buffer), started]
    refine ⟨_, rfl, rfl, ⟨(by intro impossible; cases impossible), fun low => absurd low flat⟩, ?_⟩
    rintro coeffs same
    cases same
    obtain ⟨solved, longer, bounded⟩ := levinson_solves (autocovariance vals mean) (p - 1)
      [autocovariance vals mean 1 / autocovariance vals mean 0] _ solves remaining
    rw [List.length_singleton] at longer bounded
    refine ⟨longer, bounded.trans (by omega), fun i inside => ?_⟩
    rw [← solved i inside]
    refine Finset.sum_congr rfl fun j _ => ?_
    have distance : ((i : Int) - j).natAbs = Toeplitz.gap i j := by
      unfold Toeplitz.gap
      omega
    rw [distance]
    rfl

/-- Three values and order two, with a buffer that is too short. -/
theorem yuleWalker_solves_two :
    yuleWalker [1, 0, 2] 1 2 = some [-2 / 3, -1 / 3] ∧
      ∃ result, yuleWalkerInPlace [7] [1, 0, 2] 1 2 = some result ∧
        result = yuleWalker [1, 0, 2] 1 2 := by
  refine ⟨by decide +kernel, ?_⟩
  obtain ⟨result, returned, same, -⟩ := yuleWalker_solves [7] [1, 0, 2] 1 (p := 2) (by decide)
    (by decide)
  exact ⟨result, returned, same⟩

end NyaQueue.Autoregression
