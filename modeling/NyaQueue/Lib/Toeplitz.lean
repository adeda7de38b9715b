import Mathlib.Algebra.BigOperators.Intervals
import Mathlib.Algebra.BigOperators.Ring.Finset
import Mathlib.Algebra.Field.Basic
import Mathlib.Tactic.LinearCombination
import Mathlib.Tactic.Ring

/-!
# Normal equations of a symmetric Toeplitz matrix

The matrix has `r |i - j|` in row `i` and column `j`, and the right-hand side is
`r 1, r 2, …`.  A solution for `m` unknowns is extended to one for `m + 1` by
subtracting a multiple of its own reversal; the multiple is the defect of the next
equation over the error of the solution, and the error shrinks by one minus its
square.
-/

set_option autoImplicit false

namespace Toeplitz

open Finset

variable {K : Type} [Field K] (r : Nat → K)

/-- `|i - j|` -/
def gap (i j : Nat) : Nat := (i - j) + (j - i)

/-- The first `m` values of `a` solve the first `m` equations. -/
def Solves (a : Nat → K) (m : Nat) : Prop :=
  ∀ i < m, ∑ j ∈ range m, a j * r (gap i j) = r (i + 1)

/-- What the solution leaves of `r 0`. -/
def error (a : Nat → K) (m : Nat) : K := r 0 - ∑ j ∈ range m, a j * r (j + 1)

/-- By how much the solution misses the next equation. -/
def defect (a : Nat → K) (m : Nat) : K := r (m + 1) - ∑ j ∈ range m, a j * r (m - j)

/-- The step of the recursion. -/
def extend (a : Nat → K) (m : Nat) (k : K) : Nat → K := fun j =>
  if j < m then a j - k * a (m - 1 - j) else k

variable {r} {a : Nat → K} {m : Nat}

theorem sum_extend (k : K) (f : Nat → K) :
    ∑ j ∈ range (m + 1), extend a m k j * f j =
      ∑ j ∈ range m, a j * f j - k * ∑ j ∈ range m, a (m - 1 - j) * f j + k * f m := by
  have inside : ∀ j ∈ range m, extend a m k j * f j = a j * f j - k * (a (m - 1 - j) * f j) := by
    intro j member
    rw [extend, if_pos (mem_range.mp member)]
    ring
  rw [sum_range_succ, sum_congr rfl inside, sum_sub_distrib, ← mul_sum, extend,
    if_neg (Nat.lt_irrefl m)]

theorem sum_reversed (f : Nat → K) :
    ∑ j ∈ range m, a (m - 1 - j) * f j = ∑ j ∈ range m, a j * f (m - 1 - j) := by
  rw [← sum_range_reflect]
  refine sum_congr rfl fun j member => ?_
  have inside := mem_range.mp member
  have back : m - 1 - (m - 1 - j) = j := by omega
  rw [back]

theorem Solves.reversed (solves : Solves r a m) {i : Nat} (inside : i < m) :
    ∑ j ∈ range m, a (m - 1 - j) * r (gap i j) = r (m - i) := by
  have mirrored : ∀ j ∈ range m, a j * r (gap i (m - 1 - j)) = a j * r (gap (m - 1 - i) j) := by
    intro j member
    have below := mem_range.mp member
    have same : gap i (m - 1 - j) = gap (m - 1 - i) j := by
      unfold gap
      omega
    rw [same]
  have last : m - 1 - i + 1 = m - i := by omega
  rw [sum_reversed, sum_congr rfl mirrored, solves (m - 1 - i) (by omega), last]

theorem sum_reversed_error :
    ∑ j ∈ range m, a (m - 1 - j) * r (m - j) = r 0 - error r a m := by
  have shifted : ∀ j ∈ range m, a j * r (m - (m - 1 - j)) = a j * r (j + 1) := by
    intro j member
    have inside := mem_range.mp member
    have back : m - (m - 1 - j) = j + 1 := by omega
    rw [back]
  rw [sum_reversed (fun j => r (m - j)), sum_congr rfl shifted, error]
  ring

theorem sum_reversed_defect :
    ∑ j ∈ range m, a (m - 1 - j) * r (j + 1) = r (m + 1) - defect r a m := by
  have shifted : ∀ j ∈ range m, a j * r (m - 1 - j + 1) = a j * r (m - j) := by
    intro j member
    have inside := mem_range.mp member
    have back : m - 1 - j + 1 = m - j := by omega
    rw [back]
  rw [sum_reversed (fun j => r (j + 1)), sum_congr rfl shifted, defect]
  ring

theorem Solves.congr {b : Nat → K} (same : ∀ j < m, a j = b j) (solves : Solves r a m) :
    Solves r b m := by
  intro i inside
  rw [← solves i inside]
  refine sum_congr rfl fun j member => ?_
  rw [same j (mem_range.mp member)]

theorem error_congr {b : Nat → K} (same : ∀ j < m, a j = b j) : error r a m = error r b m := by
  unfold error
  congr 1
  refine sum_congr rfl fun j member => ?_
  rw [same j (mem_range.mp member)]

section Step

variable {k : K}

theorem Solves.extend (solves : Solves r a m) (ratio : k * error r a m = defect r a m) :
    Solves r (extend a m k) (m + 1) := by
  intro i inside
  rw [sum_extend]
  by_cases old : i < m
  · have diagonal : gap i m = m - i := by
      unfold gap
      omega
    rw [solves i old, solves.reversed old, diagonal]
    ring
  · have new : i = m := by omega
    subst new
    have reach : ∀ j ∈ range i, a j * r (gap i j) = a j * r (i - j) := by
      intro j member
      have below := mem_range.mp member
      have same : gap i j = i - j := by
        unfold gap
        omega
      rw [same]
    have reach' : ∀ j ∈ range i, a (i - 1 - j) * r (gap i j) = a (i - 1 - j) * r (i - j) := by
      intro j member
      have below := mem_range.mp member
      have same : gap i j = i - j := by
        unfold gap
        omega
      rw [same]
    have self : gap i i = 0 := by
      unfold gap
      omega
    rw [sum_congr rfl reach, sum_congr rfl reach', sum_reversed_error, self]
    unfold defect at ratio
    linear_combination ratio

theorem error_extend (ratio : k * error r a m = defect r a m) :
    error r (extend a m k) (m + 1) = error r a m * (1 - k * k) := by
  have unfolded : error r (Toeplitz.extend a m k) (m + 1) =
      error r a m + k * (r (m + 1) - defect r a m) - k * r (m + 1) := by
    rw [error, sum_extend, sum_reversed_defect, error]
    ring
  rw [unfolded]
  linear_combination k * ratio

end Step

end Toeplitz
