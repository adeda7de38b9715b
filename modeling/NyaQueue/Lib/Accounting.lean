import Mathlib.Algebra.BigOperators.Fin
import Mathlib.Algebra.Order.BigOperators.Group.Finset
import Mathlib.Algebra.Order.Group.Multiset
import Mathlib.Tactic.Abel

/-!
# Sums that change in one place

Books kept as a sum over finitely many accounts: what a sum becomes when one
summand is replaced, for a family over a finite type, for a list, and for a
family of which only finitely many members count.
-/

set_option autoImplicit false

namespace Accounting

variable {M : Type} [AddCommMonoid M]

theorem sum_update_add {ι : Type} [Fintype ι] [DecidableEq ι] (f : ι → M) (i : ι) (v : M) :
    ∑ j, Function.update f i v j + f i = ∑ j, f j + v := by
  rw [Finset.sum_update_of_mem (Finset.mem_univ i), ← Finset.add_sum_erase _ f (Finset.mem_univ i),
    Finset.sdiff_singleton_eq_erase]
  abel

theorem sum_set_add {α : Type} (f : α → M) (b : α) : ∀ (items : List α) (i : Nat) (a : α),
    items[i]? = some a → ((items.set i b).map f).sum + f a = (items.map f).sum + f b
  | [], _, _, found => by cases found
  | head :: rest, 0, a, found => by
      cases found
      simp only [List.set_cons_zero, List.map_cons, List.sum_cons]
      abel
  | head :: rest, i + 1, a, found => by
      have later := sum_set_add f b rest i a found
      simp only [List.set_cons_succ, List.map_cons, List.sum_cons, add_assoc, later]

/-- `total` is the sum of a family that vanishes outside a finite set. -/
def Totals {ι : Type} (f : ι → M) (total : M) : Prop :=
  ∃ active : Finset ι, (∀ i ∉ active, f i = 0) ∧ total = ∑ i ∈ active, f i

theorem totals_zero {ι : Type} {f : ι → M} (none : ∀ i, f i = 0) : Totals f 0 :=
  ⟨∅, fun i _ => none i, Finset.sum_empty.symm⟩

theorem Totals.update {ι : Type} [DecidableEq ι] {f : ι → M} {total : M} (books : Totals f total)
    (i : ι) (v : M) : ∃ total', Totals (Function.update f i v) total' ∧
      total' + f i = total + v := by
  obtain ⟨active, outside, rfl⟩ := books
  have enlarged : ∑ j ∈ insert i active, f j = ∑ j ∈ active, f j := by
    refine (Finset.sum_subset (Finset.subset_insert i active) ?_).symm
    exact fun j _ absent => outside j absent
  refine ⟨_, ⟨insert i active, ?_, rfl⟩, ?_⟩
  · intro j absent
    obtain ⟨other, absent⟩ := not_or.mp (mt Finset.mem_insert.mpr absent)
    rw [Function.update_of_ne other, outside j absent]
  · have here := Finset.mem_insert_self i active
    rw [← enlarged, Finset.sum_update_of_mem here, ← Finset.add_sum_erase _ f here,
      Finset.sdiff_singleton_eq_erase]
    abel

theorem add_singleton_of_add_cons {α : Type} {before after : Multiset α} {e : α} {rest : List α}
    (level : after + (e :: rest : List α) = before + (rest : Multiset α)) :
    after + {e} = before := by
  rw [← Multiset.cons_coe, ← Multiset.singleton_add, ← add_assoc] at level
  exact add_right_cancel level

end Accounting
