import Mathlib.Algebra.Order.Field.Basic

/-!
# Weights relative to the greatest

A running maximum that starts at zero ends at the greatest of some positive weights.
Divided by it, the weights are positive and at most one, and one of them is one.
-/

set_option autoImplicit false

namespace Greatest

section Order

variable {F : Type} [LinearOrder F]

theorem foldl_max_cases (weights : List F) : ∀ top : F, top ≤ weights.foldl max top ∧
    (∀ w ∈ weights, w ≤ weights.foldl max top) ∧
    (weights.foldl max top = top ∨ weights.foldl max top ∈ weights) := by
  induction weights with
  | nil => intro top; exact ⟨le_rfl, List.forall_mem_nil _, .inl rfl⟩
  | cons first rest ih =>
    intro top
    obtain ⟨above, most, attained⟩ := ih (max top first)
    rw [List.foldl_cons]
    refine ⟨(le_max_left ..).trans above, ?_, ?_⟩
    · intro w member
      rcases List.mem_cons.mp member with rfl | later
      · exact (le_max_right ..).trans above
      · exact most w later
    · rcases attained with same | later
      · rcases max_choice top first with left | right
        · exact .inl (same.trans left)
        · exact .inr (List.mem_cons.mpr (.inl (same.trans right)))
      · exact .inr (List.mem_cons_of_mem _ later)

end Order

variable {F : Type} [Field F] [LinearOrder F]

def relative (weights : List F) : List F :=
  if 0 < weights.foldl max 0 then weights.map (· / weights.foldl max 0) else weights

theorem length_relative (weights : List F) : (relative weights).length = weights.length := by
  unfold relative
  split
  · exact List.length_map _
  · rfl

variable {weights : List F}

theorem greatest_pos (positive : ∀ w ∈ weights, 0 < w) (nonempty : weights ≠ []) :
    0 < weights.foldl max 0 := by
  obtain ⟨w, member⟩ := List.exists_mem_of_ne_nil weights nonempty
  exact lt_of_lt_of_le (positive w member) ((foldl_max_cases weights 0).2.1 w member)

theorem relative_bounds [IsStrictOrderedRing F] (positive : ∀ w ∈ weights, 0 < w) :
    ∀ w ∈ relative weights, 0 < w ∧ w ≤ 1 := by
  intro w member
  unfold relative at member
  split at member
  · rename_i greatest
    obtain ⟨x, inside, rfl⟩ := List.mem_map.mp member
    rw [div_le_one greatest]
    exact ⟨div_pos (positive x inside) greatest, (foldl_max_cases weights 0).2.1 x inside⟩
  · rename_i small
    exact absurd (greatest_pos positive (List.ne_nil_of_mem member)) small

theorem one_mem_relative (positive : ∀ w ∈ weights, 0 < w) (nonempty : weights ≠ []) :
    1 ∈ relative weights := by
  have greatest := greatest_pos positive nonempty
  unfold relative
  rw [if_pos greatest]
  rcases (foldl_max_cases weights 0).2.2 with zero | inside
  · exact absurd zero greatest.ne'
  · exact List.mem_map.mpr ⟨_, inside, div_self greatest.ne'⟩

end Greatest
