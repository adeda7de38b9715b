import Mathlib.Data.List.Basic

/-!
# Runs of a deterministic step function

A run folds a step function over a list of events.  `Guarded` says that a
condition on state and event holds at every step of a run; the rules below
turn facts about one step into facts about all states of a run.
-/

set_option autoImplicit false

namespace Runs

variable {σ ε : Type} (step : σ → ε → σ)

def final (s : σ) (events : List ε) : σ := events.foldl step s

/-- The states of a run, from the first to the last. -/
def states : σ → List ε → List σ
  | s, [] => [s]
  | s, e :: rest => s :: states (step s e) rest

def Guarded (guard : σ → ε → Prop) : σ → List ε → Prop
  | _, [] => True
  | s, e :: rest => guard s e ∧ Guarded guard (step s e) rest

instance guardedDecidable (guard : σ → ε → Prop) [∀ s e, Decidable (guard s e)] :
    ∀ (s : σ) (events : List ε), Decidable (Guarded step guard s events)
  | _, [] => isTrue trivial
  | s, e :: rest =>
      have := guardedDecidable guard (step s e) rest
      inferInstanceAs (Decidable (guard s e ∧ Guarded step guard (step s e) rest))

theorem final_cons (s : σ) (e : ε) (rest : List ε) :
    final step s (e :: rest) = final step (step s e) rest := rfl

theorem final_append (s : σ) (events later : List ε) :
    final step s (events ++ later) = final step (final step s events) later :=
  List.foldl_append

/-- `s'` is where some number of repetitions of one event lead from `s`. -/
def Repeats (e : ε) (s s' : σ) : Prop := ∃ n, final step s (List.replicate n e) = s'

theorem Repeats.refl (e : ε) (s : σ) : Repeats step e s s := ⟨0, rfl⟩

theorem self_mem_states (s : σ) (events : List ε) : s ∈ states step s events := by
  cases events <;> simp [states]

theorem final_mem_states (events : List ε) : ∀ s : σ, final step s events ∈ states step s events := by
  induction events with
  | nil => intro s; simp [final, states]
  | cons e rest ih => intro s; exact List.mem_cons_of_mem _ (ih (step s e))

variable {step} {assume guard : σ → ε → Prop} {invariant good : σ → Prop}

theorem Repeats.head {e : ε} {s s' : σ} (rest : Repeats step e (step s e) s') :
    Repeats step e s s' := by
  obtain ⟨n, reached⟩ := rest
  exact ⟨n + 1, reached⟩

theorem Repeats.of_step {e : ε} {s s' s'' : σ} (here : step s e = s')
    (rest : Repeats step e s' s'') : Repeats step e s s'' := by
  subst here
  exact rest.head

theorem Repeats.trans {e : ε} {s s' s'' : σ} (first : Repeats step e s s')
    (second : Repeats step e s' s'') : Repeats step e s s'' := by
  obtain ⟨n, rfl⟩ := first
  obtain ⟨m, rfl⟩ := second
  refine ⟨n + m, ?_⟩
  rw [List.replicate_add, final_append]

theorem invariant_states (keep : ∀ s e, invariant s → guard s e → invariant (step s e))
    (events : List ε) : ∀ s : σ, invariant s → Guarded step guard s events →
      ∀ t ∈ states step s events, invariant t := by
  induction events with
  | nil =>
    intro s holds _ t member
    rw [List.mem_singleton.mp member]
    exact holds
  | cons e rest ih =>
    intro s holds guarded t member
    rcases List.mem_cons.mp member with rfl | later
    · exact holds
    · exact ih (step s e) (keep s e holds guarded.1) guarded.2 t later

theorem guarded_true (events : List ε) : ∀ s : σ, Guarded step (fun _ _ => True) s events := by
  induction events with
  | nil => intro s; trivial
  | cons e rest ih => intro s; exact ⟨trivial, ih _⟩

theorem guarded_of_forall {good : ε → Prop} (events : List ε) (all : ∀ e ∈ events, good e) :
    ∀ s : σ, Guarded step (fun _ e => good e) s events := by
  induction events with
  | nil => intro s; trivial
  | cons e rest ih =>
    intro s
    obtain ⟨here, later⟩ := List.forall_mem_cons.mp all
    exact ⟨here, ih later _⟩

theorem Guarded.imp {other : σ → ε → Prop} (weaker : ∀ s e, guard s e → other s e)
    {events : List ε} : ∀ {s : σ}, Guarded step guard s events → Guarded step other s events := by
  induction events with
  | nil => intro s _; trivial
  | cons e rest ih => exact fun guarded => ⟨weaker _ _ guarded.1, ih guarded.2⟩

theorem Guarded.and {other : σ → ε → Prop} {events : List ε} : ∀ {s : σ},
    Guarded step guard s events → Guarded step other s events →
      Guarded step (fun s e => guard s e ∧ other s e) s events := by
  induction events with
  | nil => intro s _ _; trivial
  | cons e rest ih => exact fun first second => ⟨⟨first.1, second.1⟩, ih first.2 second.2⟩

theorem invariant_of_step (keep : ∀ s e, invariant s → invariant (step s e)) (events : List ε)
    (s : σ) (holds : invariant s) : ∀ t ∈ states step s events, invariant t :=
  invariant_states (fun s e holds _ => keep s e holds) events s holds (guarded_true events s)

theorem invariant_final (keep : ∀ s e, invariant s → invariant (step s e)) (events : List ε)
    (s : σ) (holds : invariant s) : invariant (final step s events) :=
  invariant_of_step keep events s holds _ (final_mem_states step events s)

/-- Two runs stay related when the second one skips the events that a filter
drops, as long as such an event leaves the first state related. -/
theorem related_filter (step : σ → ε → σ) (keeps : ε → Bool) (related : σ → σ → Prop)
    (both : ∀ s s' e, related s s' → keeps e = true → related (step s e) (step s' e))
    (skip : ∀ s s' e, related s s' → keeps e = false → related (step s e) s')
    (events : List ε) : ∀ s s' : σ, related s s' →
      related (final step s events) (final step s' (events.filter keeps)) := by
  induction events with
  | nil => exact fun s s' holds => holds
  | cons e rest ih =>
    intro s s' holds
    cases kept : keeps e with
    | true =>
      rw [List.filter_cons_of_pos kept]
      exact ih _ _ (both s s' e holds kept)
    | false =>
      rw [List.filter_cons_of_neg (by simp [kept])]
      exact ih _ _ (skip s s' e holds kept)

/-- When a guarded step keeps the invariant and an unguarded one ends in a bad
state, a run is good throughout exactly when all of its steps are guarded. -/
theorem states_good_iff_guarded (enough : ∀ s, invariant s → good s)
    (keep : ∀ s e, invariant s → assume s e → guard s e → invariant (step s e))
    (necessary : ∀ s e, invariant s → assume s e → good (step s e) → guard s e)
    (events : List ε) : ∀ s : σ, invariant s → Guarded step assume s events →
      ((∀ t ∈ states step s events, good t) ↔ Guarded step guard s events) := by
  induction events with
  | nil =>
    intro s holds _
    simp [states, Guarded, enough s holds]
  | cons e rest ih =>
    intro s holds assumed
    have first := necessary s e holds assumed.1
    simp only [states, Guarded, List.forall_mem_cons, enough s holds, true_and]
    constructor
    · intro later
      have guarded := first (later _ (self_mem_states step _ _))
      exact ⟨guarded, (ih _ (keep s e holds assumed.1 guarded) assumed.2).mp later⟩
    · rintro ⟨guarded, later⟩
      exact (ih _ (keep s e holds assumed.1 guarded) assumed.2).mpr later

/-- When a step from a good state is good exactly if it is guarded, so are runs. -/
theorem states_iff_guarded (exactly : ∀ s e, good s → (good (step s e) ↔ guard s e))
    (events : List ε) (s : σ) (holds : good s) :
    (∀ t ∈ states step s events, good t) ↔ Guarded step guard s events :=
  states_good_iff_guarded (fun _ holds => holds)
    (fun s e holds _ guarded => (exactly s e holds).mpr guarded)
    (fun s e holds _ later => (exactly s e holds).mp later) events s holds (guarded_true events s)

end Runs
