import NyaQueue.Lib.Runs
import Mathlib.Data.List.Infix

/-!
# Latches over a history of verdicts

A watchdog sees one verdict a tick and keeps two counters, for the bad and the
good verdicts in a row, and a flag: `enter` bad verdicts in a row switch the
flag on, `exit` good ones switch it off.  `Held` says when the flag is on in
terms of the history alone: `enter` bad verdicts in a row, and since then never
`exit` good ones in a row.
-/

set_option autoImplicit false

namespace Latch

/-! ## Verdicts in a row -/

/-- The history ends with exactly `n` verdicts `b` in a row. -/
def TrailingRun (b : Bool) (n : Nat) (history : List Bool) : Prop :=
  ∀ k, List.replicate k b <:+ history ↔ k ≤ n

theorem replicate_suffix_concat (b a : Bool) (k : Nat) (history : List Bool) :
    List.replicate (k + 1) b <:+ history ++ [a] ↔ a = b ∧ List.replicate k b <:+ history := by
  rw [List.suffix_concat_iff, List.replicate_succ']
  constructor
  · rintro (none | ⟨older, same, suffix⟩)
    · exact absurd none (List.append_ne_nil_of_right_ne_nil _ (List.cons_ne_nil _ _))
    · obtain ⟨rfl, last⟩ := List.append_inj' same rfl
      exact ⟨(List.singleton_inj.mp last).symm, suffix⟩
  · rintro ⟨rfl, suffix⟩
    exact .inr ⟨_, rfl, suffix⟩

theorem trailingRun_nil (b : Bool) : TrailingRun b 0 [] := by
  intro k
  rw [List.suffix_nil, List.replicate_eq_nil_iff, Nat.le_zero]

theorem TrailingRun.concat_same {b : Bool} {n : Nat} {history : List Bool}
    (run : TrailingRun b n history) : TrailingRun b (n + 1) (history ++ [b]) := by
  intro k
  cases k with
  | zero => simp [List.nil_suffix]
  | succ k => rw [replicate_suffix_concat, run k, Nat.add_le_add_iff_right, and_iff_right rfl]

theorem trailingRun_concat_ne {b a : Bool} (different : a ≠ b) (history : List Bool) :
    TrailingRun b 0 (history ++ [a]) := by
  intro k
  cases k with
  | zero => simp [List.nil_suffix]
  | succ k => simp [replicate_suffix_concat, different]

/-! ## The flag as a property of the history -/

def Held (enter exit : Nat) (history : List Bool) : Prop :=
  ∃ older later, history = older ++ List.replicate enter true ++ later ∧
    ¬ List.replicate exit false <:+: later

theorem replicate_suffix_later {older later : List Bool} {exit : Nat}
    (suffix : List.replicate exit false <:+ older ++ true :: later) :
    List.replicate exit false <:+ later := by
  by_cases short : exit ≤ later.length
  · have whole : later <:+ older ++ true :: later := ⟨older ++ [true], by simp⟩
    exact List.suffix_of_suffix_length_le suffix whole (by simpa using short)
  · -- a longer run would contain the bad verdict
    have whole : true :: later <:+ older ++ true :: later := ⟨older, rfl⟩
    have inside := List.suffix_of_suffix_length_le whole suffix (by simp; omega)
    have bad := List.eq_of_mem_replicate (inside.subset List.mem_cons_self)
    cases bad

section
variable {enter exit : Nat}

theorem not_held_nil (entered : 0 < enter) : ¬ Held enter exit [] := by
  rintro ⟨older, later, split, -⟩
  have length := congrArg List.length split
  simp at length
  omega

theorem held_concat (history : List Bool) (a : Bool) : Held enter exit (history ++ [a]) ↔
    (List.replicate enter true <:+ history ++ [a] ∧ ¬ List.replicate exit false <:+: []) ∨
    ∃ older later, history = older ++ List.replicate enter true ++ later ∧
      ¬ List.replicate exit false <:+: later ++ [a] := by
  constructor
  · rintro ⟨older, later, split, free⟩
    rcases List.eq_nil_or_concat later with rfl | ⟨before, last, rfl⟩
    · rw [List.append_nil] at split
      exact .inl ⟨⟨older, split.symm⟩, free⟩
    · rw [List.concat_eq_append] at split free
      rw [← List.append_assoc] at split
      obtain ⟨same, final⟩ := List.append_inj' split rfl
      rw [← List.singleton_inj.mp final] at free
      exact .inr ⟨older, before, same, free⟩
  · rintro (⟨⟨older, split⟩, free⟩ | ⟨older, later, split, free⟩)
    · exact ⟨older, [], by rw [List.append_nil, split], free⟩
    · exact ⟨older, later ++ [a], by rw [split, List.append_assoc], free⟩

theorem held_concat_true (left : 0 < exit) (history : List Bool) :
    Held enter exit (history ++ [true]) ↔
      Held enter exit history ∨ List.replicate enter true <:+ history ++ [true] := by
  obtain ⟨exit, rfl⟩ := Nat.exists_eq_add_one.mpr left
  have none : ¬ List.replicate (exit + 1) false <:+: [] := by simp [List.replicate_succ]
  have later : ∀ later, List.replicate (exit + 1) false <:+: later ++ [true] ↔
      List.replicate (exit + 1) false <:+: later := by
    intro later
    rw [List.infix_concat_iff, replicate_suffix_concat]
    simp
  simp only [held_concat, none, later, not_false_eq_true, and_true]
  exact or_comm

theorem held_concat_false (entered : 0 < enter) (history : List Bool) :
    Held enter exit (history ++ [false]) ↔
      Held enter exit history ∧ ¬ List.replicate exit false <:+ history ++ [false] := by
  obtain ⟨enter, rfl⟩ := Nat.exists_eq_add_one.mpr entered
  have bad : ¬ List.replicate (enter + 1) true <:+ history ++ [false] := by
    rw [replicate_suffix_concat]
    simp
  simp only [held_concat, bad, false_and, false_or]
  constructor
  · rintro ⟨older, later, rfl, free⟩
    rw [List.infix_concat_iff, not_or] at free
    refine ⟨⟨older, later, rfl, free.2⟩, fun suffix => free.1 ?_⟩
    rw [List.replicate_succ', ← List.append_assoc, List.append_assoc _ [true] later,
      List.append_assoc] at suffix
    exact replicate_suffix_later suffix
  · rintro ⟨⟨older, later, rfl, free⟩, short⟩
    refine ⟨older, later, rfl, ?_⟩
    rw [List.infix_concat_iff, not_or]
    refine ⟨fun suffix => short (suffix.trans ⟨older ++ List.replicate (enter + 1) true, ?_⟩), free⟩
    rw [List.append_assoc _ later]

theorem Held.mono {fewer : Nat} (le : fewer ≤ enter) {history : List Bool}
    (held : Held enter exit history) : Held fewer exit history := by
  obtain ⟨older, later, rfl, free⟩ := held
  obtain ⟨more, rfl⟩ := Nat.exists_eq_add_of_le le
  refine ⟨older ++ List.replicate more true, later, ?_, free⟩
  rw [Nat.add_comm, List.replicate_add, ← List.append_assoc older]

theorem held_one_iff (left : 0 < exit) (history : List Bool) : Held 1 exit history ↔
    ∃ older good, history = older ++ true :: good ∧ (∀ b ∈ good, b = false) ∧
      good.length < exit := by
  induction history using List.reverseRecOn with
  | nil => simp [not_held_nil]
  | append_singleton history a ih =>
    cases a with
    | true =>
      have single : List.replicate 1 true <:+ history ++ [true] := ⟨history, rfl⟩
      simp only [held_concat_true left, single, or_true, true_iff]
      exact ⟨history, [], rfl, by simp, left⟩
    | false =>
      rw [held_concat_false Nat.one_pos, ih]
      constructor
      · rintro ⟨⟨older, good, rfl, all, -⟩, short⟩
        refine ⟨older, good ++ [false], by simp, by simpa using all, ?_⟩
        by_contra long
        have run : good ++ [false] = List.replicate (good.length + 1) false := by
          rw [List.replicate_succ', ← List.eq_replicate_of_mem all]
        have inside : List.replicate exit false <:+ good ++ [false] := by
          rw [run, List.suffix_replicate_iff]
          simp at long ⊢
          omega
        exact short (inside.trans ⟨older ++ [true], by simp⟩)
      · rintro ⟨older, good, split, all, short⟩
        rcases List.eq_nil_or_concat good with rfl | ⟨before, last, rfl⟩
        · obtain ⟨-, same⟩ := List.append_inj' split rfl
          cases List.singleton_inj.mp same
        · rw [List.concat_eq_append, ← List.cons_append, ← List.append_assoc] at split
          obtain ⟨rfl, -⟩ := List.append_inj' split rfl
          simp only [List.concat_eq_append, List.mem_append, List.length_append,
            List.length_singleton] at all short
          refine ⟨⟨older, before, rfl, fun b member => all b (.inl member), by omega⟩, ?_⟩
          intro suffix
          rw [List.append_assoc, List.cons_append] at suffix
          have := (replicate_suffix_later suffix).length_le
          simp at this
          omega

end

/-! ## The machine -/

structure State where
  up : Nat
  down : Nat
  on : Bool

def State.start : State := ⟨0, 0, false⟩

def step (enter exit : Nat) (s : State) : Bool → State
  | true => ⟨s.up + 1, 0, s.on || decide (enter ≤ s.up + 1)⟩
  | false => ⟨0, s.down + 1, s.on && !decide (exit ≤ s.down + 1)⟩

/-- The counters count verdicts in a row, and the flag is what `Held` says. -/
structure Tracks (enter exit : Nat) (history : List Bool) (s : State) : Prop where
  up : TrailingRun true s.up history
  down : TrailingRun false s.down history
  on : s.on = true ↔ Held enter exit history

section
variable {enter exit : Nat}

theorem tracks_start (entered : 0 < enter) : Tracks enter exit [] .start :=
  ⟨trailingRun_nil true, trailingRun_nil false, by simp [State.start, not_held_nil entered]⟩

theorem Tracks.step (entered : 0 < enter) (left : 0 < exit) {history : List Bool} {s : State}
    (tracks : Tracks enter exit history s) (verdict : Bool) :
    Tracks enter exit (history ++ [verdict]) (Latch.step enter exit s verdict) := by
  cases verdict with
  | true =>
    have up := tracks.up.concat_same
    refine ⟨up, trailingRun_concat_ne (by decide) history, ?_⟩
    rw [held_concat_true left, up enter, ← tracks.on]
    simp [Latch.step]
  | false =>
    have down := tracks.down.concat_same
    refine ⟨trailingRun_concat_ne (by decide) history, down, ?_⟩
    rw [held_concat_false entered, down exit, ← tracks.on]
    simp [Latch.step]

end

end Latch
