import Mathlib.Data.List.Basic

/-!
# Threads in a list

The threads of a machine stand in a list, each known by its place.  A step replaces
one of them or adds one at the end; these rules say what that leaves of the others.
-/

set_option autoImplicit false

namespace Threads

variable {α : Type} {threads : List α} {i j : Nat} {before after new thread : α}

theorem set_self (here : threads[i]? = some before) (after : α) :
    (threads.set i after)[i]? = some after :=
  List.getElem?_set_self (List.getElem?_eq_some_iff.mp here).1

theorem get_set (here : threads[i]? = some before) (after : α) (j : Nat) :
    (threads.set i after)[j]? = if j = i then some after else threads[j]? := by
  by_cases same : j = i
  · rw [if_pos same, same, set_self here]
  · rw [if_neg same, List.getElem?_set_ne (Ne.symm same)]

theorem of_set (there : (threads.set i after)[j]? = some thread) :
    (j = i ∧ thread = after) ∨ (j ≠ i ∧ threads[j]? = some thread) := by
  by_cases same : j = i
  · subst same
    have inside := (List.getElem?_eq_some_iff.mp there).1
    rw [List.length_set] at inside
    rw [List.getElem?_set_self inside] at there
    exact .inl ⟨rfl, (Option.some.inj there).symm⟩
  · rw [List.getElem?_set_ne (Ne.symm same)] at there
    exact .inr ⟨same, there⟩

theorem get_concat (other : thread ≠ new) :
    (threads ++ [new])[j]? = some thread ↔ threads[j]? = some thread := by
  rcases Nat.lt_or_ge j threads.length with inside | outside
  · rw [List.getElem?_append_left inside]
  · rw [List.getElem?_append_right outside, List.getElem?_eq_none outside]
    constructor
    · intro there
      exact absurd (List.mem_singleton.mp (List.mem_of_getElem? there)) other
    · intro impossible
      cases impossible

variable {p : α → Bool}

theorem exists_set (here : threads[i]? = some before) (other : p before = false)
    (some_thread : ∃ thread ∈ threads, p thread = true) :
    ∃ thread ∈ threads.set i after, p thread = true := by
  obtain ⟨thread, member, holds⟩ := some_thread
  obtain ⟨j, there⟩ := List.mem_iff_getElem?.mp member
  have different : j ≠ i := by
    rintro rfl
    rw [here] at there
    rw [← Option.some.inj there, other] at holds
    cases holds
  refine ⟨thread, List.mem_iff_getElem?.mpr ⟨j, ?_⟩, holds⟩
  rw [get_set here, if_neg different]
  exact there

theorem forall_set (all : ∀ thread ∈ threads, p thread = false) (new : p after = false) :
    ∀ thread ∈ threads.set i after, p thread = false := by
  intro thread member
  rcases List.mem_or_eq_of_mem_set member with old | rfl
  · exact all thread old
  · exact new

theorem forall_of_set (here : threads[i]? = some before) (still : p before = true → p after = true)
    (all : ∀ thread ∈ threads.set i after, p thread = false) :
    ∀ thread ∈ threads, p thread = false := by
  intro thread member
  by_contra holds
  rw [Bool.not_eq_false] at holds
  cases own : p before with
  | true =>
    have new := all after (List.mem_of_getElem? (set_self here after))
    rw [still own] at new
    cases new
  | false =>
    obtain ⟨other, member', holds'⟩ : ∃ other ∈ threads.set i after, p other = true :=
      exists_set here own ⟨thread, member, holds⟩
    rw [all other member'] at holds'
    cases holds'

end Threads
