import Mathlib.Logic.Equiv.Basic
import Mathlib.Logic.Equiv.Fin.Basic

/-!
# Shuffling in place

The loop of Fisher and Yates on an array of `n` elements, which walks down from
the last position and swaps each with one not behind it.  The numbers drawn are an
argument; whatever they are, the loop only reorders the array.
-/

set_option autoImplicit false

namespace Shuffle

variable {α : Type} {n : Nat}

/-- `xs[i], xs[j] = xs[j], xs[i]` -/
def swap (xs : Fin n → α) (i j : Fin n) : Fin n → α := fun k =>
  if k = i then xs j else if k = j then xs i else xs k

/-- The loop from position `i` down; `draw i` is taken modulo the `i + 1` positions
up to `i`. -/
def loop (draw : Nat → Nat) : (i : Nat) → i < n → (Fin n → α) → Fin n → α
  | 0, _, xs => xs
  | i + 1, inside, xs =>
      have below : draw (i + 1) % (i + 2) < n :=
        Nat.lt_of_lt_of_le (Nat.mod_lt _ (Nat.succ_pos _)) inside
      loop draw i (Nat.lt_of_succ_lt inside) (swap xs ⟨i + 1, inside⟩ ⟨_, below⟩)

def shuffle (draw : Nat → Nat) (xs : Fin n → α) : Fin n → α :=
  if inside : n - 1 < n then loop draw (n - 1) inside xs else xs

theorem swap_eq (xs : Fin n → α) (i j : Fin n) : swap xs i j = xs ∘ Equiv.swap i j := by
  funext k
  simp only [swap, Function.comp, Equiv.swap_apply_def]
  split
  · rfl
  · split <;> rfl

theorem loop_reorders (draw : Nat → Nat) (i : Nat) (inside : i < n) : ∀ xs : Fin n → α,
    ∃ σ : Equiv.Perm (Fin n), loop draw i inside xs = xs ∘ σ := by
  induction i with
  | zero => intro xs; exact ⟨Equiv.refl _, rfl⟩
  | succ i ih =>
    intro xs
    rw [loop, swap_eq]
    generalize Equiv.swap (⟨i + 1, inside⟩ : Fin n) _ = τ
    obtain ⟨σ, rest⟩ := ih (Nat.lt_of_succ_lt inside) (xs ∘ τ)
    exact ⟨σ.trans τ, rest⟩

theorem shuffle_reorders (draw : Nat → Nat) (xs : Fin n → α) :
    ∃ σ : Equiv.Perm (Fin n), shuffle draw xs = xs ∘ σ := by
  unfold shuffle
  split
  · exact loop_reorders draw _ _ xs
  · exact ⟨Equiv.refl _, rfl⟩

end Shuffle
