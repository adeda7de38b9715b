import Mathlib.Data.List.Induction
import Mathlib.Data.List.Nodup

/-!
# Schedules that grow at the end

A schedule is a list of events that is extended at its end, one event at a time.
An event of the longer schedule is the new one or has its place in the old one, and
the last element of some kind is the one that all others of that kind come before.
-/

set_option autoImplicit false

namespace Schedule

variable {α : Type}

theorem concat_eq_append_cons {old before after : List α} {new x : α}
    (split : old ++ [new] = before ++ x :: after) :
    (before = old ∧ x = new ∧ after = []) ∨
      ∃ rest, after = rest ++ [new] ∧ old = before ++ x :: rest := by
  rcases List.eq_nil_or_concat after with rfl | ⟨rest, last, rfl⟩
  · obtain ⟨same, equal⟩ := List.append_inj' split rfl
    exact .inl ⟨same.symm, (List.cons.inj equal).1.symm, rfl⟩
  · rw [List.concat_eq_append, ← List.cons_append, ← List.append_assoc] at split
    obtain ⟨same, equal⟩ := List.append_inj' split rfl
    exact .inr ⟨rest, by rw [List.concat_eq_append, (List.cons.inj equal).1], same⟩

variable [DecidableEq α]

theorem getLast?_filter_eq_iff (p : α → Bool) {xs : List α} (distinct : xs.Nodup) {q : α}
    (member : q ∈ xs) (holds : p q = true) :
    (xs.filter p).getLast? = some q ↔
      ∀ x ∈ xs, p x = true → x ≠ q → xs.idxOf x < xs.idxOf q := by
  obtain ⟨before, after, rfl⟩ := List.append_of_mem member
  obtain ⟨-, later, apart⟩ := List.nodup_append.mp distinct
  have fresh : q ∉ before := fun early => apart q early q List.mem_cons_self rfl
  have alone : q ∉ after := (List.nodup_cons.mp later).1
  have place : (before ++ q :: after).idxOf q = before.length := by
    rw [List.idxOf_append_of_notMem fresh, List.idxOf_cons_self, Nat.add_zero]
  have ends : ((before ++ q :: after).filter p).getLast? = some q ↔ after.filter p = [] := by
    rw [List.filter_append, List.filter_cons_of_pos holds, List.getLast?_append, List.getLast?_cons,
      Option.some_or, Option.some.injEq]
    cases last : (after.filter p).getLast? with
    | none => exact iff_of_true rfl (List.getLast?_eq_none_iff.mp last)
    | some x =>
      have inside : x ∈ after.filter p := List.mem_of_getLast? last
      refine iff_of_false ?_ (List.ne_nil_of_mem inside)
      exact ne_of_mem_of_not_mem (List.mem_of_mem_filter inside) alone
  rw [ends, List.filter_eq_nil_iff]
  constructor
  · intro none x inside like other
    rw [place]
    rcases List.mem_append.mp inside with early | late
    · rw [List.idxOf_append_of_mem early]
      exact List.idxOf_lt_length_iff.mpr early
    · exact absurd like (none x (List.mem_of_ne_of_mem other late))
  · intro order x late like
    have outside : x ∉ before := fun early => apart x early x (List.mem_cons_of_mem _ late) rfl
    have less := order x (List.mem_append_right _ (List.mem_cons_of_mem _ late)) like
      (ne_of_mem_of_not_mem late alone)
    rw [place, List.idxOf_append_of_notMem outside] at less
    omega

end Schedule
