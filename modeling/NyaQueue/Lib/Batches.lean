import Mathlib.Data.List.AList

/-!
# Batches on finite maps

A batch of deletions applied to a finite map one after the other, as a
key-value database does with a write batch.
-/

set_option autoImplicit false

namespace Batches

variable {α β : Type} [DecidableEq α]

def eraseAll (keys : List α) (m : AList fun _ : α => β) : AList fun _ : α => β :=
  keys.foldl (fun m key => m.erase key) m

theorem lookup_eraseAll_of_not_mem {keys : List α} {a : α} (outside : a ∉ keys)
    (m : AList fun _ : α => β) : (eraseAll keys m).lookup a = m.lookup a := by
  induction keys generalizing m with
  | nil => rfl
  | cons key rest ih =>
    have different := List.ne_of_not_mem_cons outside
    have later := List.not_mem_of_not_mem_cons outside
    have step : eraseAll (key :: rest) m = eraseAll rest (m.erase key) := rfl
    rw [step, ih later, AList.lookup_erase_ne different]

theorem lookup_eraseAll_of_mem {keys : List α} {a : α} (inside : a ∈ keys)
    (m : AList fun _ : α => β) : (eraseAll keys m).lookup a = none := by
  induction keys generalizing m with
  | nil => cases inside
  | cons key rest ih =>
    have step : eraseAll (key :: rest) m = eraseAll rest (m.erase key) := rfl
    rw [step]
    by_cases later : a ∈ rest
    · exact ih later _
    · rcases List.mem_cons.mp inside with rfl | there
      · rw [lookup_eraseAll_of_not_mem later, AList.lookup_erase]
      · exact absurd there later

end Batches
