import Mathlib.Algebra.BigOperators.Group.List.Basic
import Mathlib.Algebra.BigOperators.Ring.List
import Mathlib.Algebra.Order.BigOperators.Group.List
import Mathlib.Algebra.Order.Field.Basic
import Mathlib.Analysis.Real.Sqrt
import Mathlib.Tactic.FieldSimp
import Mathlib.Tactic.LinearCombination
import Mathlib.Tactic.Positivity
import Mathlib.Tactic.Ring

/-!
# Mean and deviation of a sample

The mean of a sample, the sum of the squared deviations from it, and the sample
standard deviation.  A value more changes mean and squares by the update of
Welford's algorithm, and the last value is never further from the mean than the
squares allow for a sample of that size.
-/

set_option autoImplicit false

/-- Square roots, as far as they are used. -/
class SquareRoot (F : Type) [Field F] [LinearOrder F] where
  sqrt : F → F
  sqrt_nonneg (x : F) : 0 ≤ sqrt x
  sqrt_mul_self {x : F} (nonneg : 0 ≤ x) : sqrt x * sqrt x = x

noncomputable instance Real.squareRoot : SquareRoot ℝ where
  sqrt := Real.sqrt
  sqrt_nonneg := Real.sqrt_nonneg
  sqrt_mul_self := Real.mul_self_sqrt

namespace Moments

section Field

variable {F : Type} [Field F]

def mean (xs : List F) : F := xs.sum / xs.length

/-- The sum of the squared deviations from the mean. -/
def squares (xs : List F) : F := (xs.map fun x => (x - mean xs) * (x - mean xs)).sum

/-- The sample variance. -/
def variance (xs : List F) : F := squares xs / (xs.length - 1)

theorem sum_deviations (m : F) (xs : List F) :
    (xs.map fun x => (x - m) * (x - m)).sum =
      (xs.map fun x => x * x).sum - 2 * m * xs.sum + xs.length * (m * m) := by
  induction xs with
  | nil => simp
  | cons x rest ih =>
    simp only [List.map_cons, List.sum_cons, List.length_cons, ih]
    push_cast
    ring

theorem length_mul_mean [CharZero F] (xs : List F) : xs.length * mean xs = xs.sum := by
  unfold mean
  by_cases empty : xs = []
  · simp [empty]
  · have size : (xs.length : F) ≠ 0 := by simpa using empty
    exact mul_div_cancel₀ _ size

theorem squares_eq [CharZero F] (xs : List F) :
    squares xs = (xs.map fun x => x * x).sum - xs.length * (mean xs * mean xs) := by
  rw [squares, sum_deviations, ← length_mul_mean xs]
  ring

section Concat

variable [CharZero F] (xs : List F) (x : F)

theorem mean_concat : mean (xs ++ [x]) = mean xs + (x - mean xs) / (xs.length + 1) := by
  have size : (xs.length : F) + 1 ≠ 0 := by exact_mod_cast Nat.succ_ne_zero xs.length
  have total := length_mul_mean xs
  have unfolded : mean (xs ++ [x]) = (xs.sum + x) / (xs.length + 1) := by
    simp [mean]
  rw [unfolded, ← total]
  field_simp
  ring

theorem squares_concat :
    squares (xs ++ [x]) = squares xs + (x - mean xs) * (x - mean (xs ++ [x])) := by
  have size : (xs.length : F) + 1 ≠ 0 := by exact_mod_cast Nat.succ_ne_zero xs.length
  rw [squares_eq, squares_eq, List.map_append, List.sum_append, List.length_append, mean_concat]
  simp only [List.map_cons, List.map_nil, List.sum_cons, List.sum_nil, List.length_singleton]
  push_cast
  field_simp
  ring

theorem sub_mean_concat :
    (xs.length + 1) * (x - mean (xs ++ [x])) = xs.length * (x - mean xs) := by
  have size : (xs.length : F) + 1 ≠ 0 := by exact_mod_cast Nat.succ_ne_zero xs.length
  rw [mean_concat]
  field_simp
  ring

end Concat

end Field

section Order

variable {F : Type} [Field F] [LinearOrder F] [IsStrictOrderedRing F]

theorem squares_nonneg (xs : List F) : 0 ≤ squares xs := by
  refine List.sum_nonneg fun square member => ?_
  obtain ⟨x, -, rfl⟩ := List.mem_map.mp member
  exact mul_self_nonneg _

theorem last_deviation (xs : List F) (x : F) :
    (xs.length + 1) * ((x - mean (xs ++ [x])) * (x - mean (xs ++ [x]))) ≤
      xs.length * squares (xs ++ [x]) := by
  have off := sub_mean_concat xs x
  have grown := squares_concat xs x
  have old : 0 ≤ xs.length * squares xs := mul_nonneg (Nat.cast_nonneg _) (squares_nonneg xs)
  rw [grown]
  have same : (xs.length + 1) * ((x - mean (xs ++ [x])) * (x - mean (xs ++ [x]))) =
      xs.length * ((x - mean xs) * (x - mean (xs ++ [x]))) := by
    linear_combination (x - mean (xs ++ [x])) * off
  rw [same, mul_add]
  exact le_add_of_nonneg_left old

variable [SquareRoot F]

/-- The sample standard deviation. -/
def stdDev (xs : List F) : F := SquareRoot.sqrt (squares xs / (xs.length - 1))

omit [IsStrictOrderedRing F] in
theorem stdDev_nonneg (xs : List F) : 0 ≤ stdDev xs := SquareRoot.sqrt_nonneg _

theorem stdDev_mul_self {xs : List F} (some_value : xs ≠ []) :
    stdDev xs * stdDev xs = squares xs / (xs.length - 1) := by
  have size : (1 : F) ≤ xs.length := by
    exact_mod_cast List.length_pos_iff.mpr some_value
  exact SquareRoot.sqrt_mul_self (div_nonneg (squares_nonneg xs) (sub_nonneg.mpr size))

end Order

end Moments
