import NyaQueue.BufferedProducer

/-!
# Which errors of the buffered producer are reported

A batch that `Send`, `Flush` or `Close` hands out fails together with the call.
The error of a flush by the timer is parked in a slot that only `Send` reads.
`Close` loses it when it is parked, about to be parked, or still to come; when
`Close` waits for that, every failed batch is reported.
-/

set_option autoImplicit false

namespace NyaQueue

namespace ProducerThread

/-- The error that is still to be parked. -/
def parks : ProducerThread → Option SendError
  | .parking err => some err
  | _ => none

/-- Whether it is a `Close` with its `ProduceBatch` under way. -/
def closes : ProducerThread → Bool
  | .sending .close _ _ => true
  | _ => false

end ProducerThread

namespace ProducerRun

/-- If no `Send` and no `Flush` has returned an error, and a `Close` has
returned nil, then no batch has failed. -/
def Reported (s : ProducerRun) : Prop :=
  (∀ call err, (call, some err) ∈ s.returned → call = .close) → (.close, none) ∈ s.returned →
    ∀ batch cause, (batch, some cause) ∉ s.outcomes

/-- No error of the timer is waiting for a `Send`, and an earlier `Close` has
gone well. -/
structure Settled (s : ProducerRun) : Prop where
  parked : s.producer.asyncErr = none
  parking : ∀ i, (s.threads i).parks = none
  closed : s.producer.closed = true →
    (∀ i, (s.threads i).closes = false) ∧ ∀ err, (.close, some err) ∉ s.returned

/-- `Close` finds no error of the timer pending, and no flush of the timer that
is under way then fails later. -/
def Waits (s : ProducerRun) : ProducerEvent → Prop
  | .lock i => s.threads i = .locking .close → s.Settled
  | .answer i (some _) => ∀ batch, s.threads i = .flushing batch → s.producer.closed = false
  | _ => True

structure Inv (s : ProducerRun) : Prop where
  /-- the error of a failed batch has been returned, or is on its way to a `Send` -/
  accounted : ∀ batch cause, (batch, some cause) ∈ s.outcomes →
    (∃ call err, (call, some err) ∈ s.returned) ∨ s.producer.asyncErr ≠ none ∨
      ∃ i, (s.threads i).parks ≠ none
  closed : s.producer.closed = true →
    s.producer.asyncErr = none ∧ ∀ i, (s.threads i).parks = none
  opened : s.producer.closed = false →
    (∀ i, (s.threads i).closes = false) ∧ ∀ err, (.close, err) ∉ s.returned
  /-- there is one `Close` that sends, and none has returned before it -/
  closing : ∀ i, (s.threads i).closes = true →
    (∀ j, (s.threads j).closes = true → j = i) ∧ ∀ err, (.close, err) ∉ s.returned
  ended : (.close, none) ∈ s.returned → ∀ err, (.close, some err) ∉ s.returned

theorem Inv.reported {s : ProducerRun} (inv : Inv s) : s.Reported := by
  intro others closed batch cause failed
  have done : s.producer.closed = true := by
    by_contra opened
    exact (inv.opened (Bool.not_eq_true _ ▸ opened)).2 none closed
  rcases inv.accounted batch cause failed with ⟨call, err, returned⟩ | parked | ⟨i, parking⟩
  · obtain rfl := others call err returned
    exact inv.ended closed err returned
  · exact parked (inv.closed done).1
  · exact parking ((inv.closed done).2 i)

theorem Inv.failed_returned {s : ProducerRun} (inv : Inv s) (parked : s.producer.asyncErr = none)
    (parking : ∀ i, (s.threads i).parks = none) {batch : List ProduceMessage} {cause : ClientError}
    (failed : (batch, some cause) ∈ s.outcomes) : ∃ call err, (call, some err) ∈ s.returned := by
  rcases inv.accounted batch cause failed with returned | waiting | ⟨i, waiting⟩
  · exact returned
  · exact absurd parked waiting
  · exact absurd (parking i) waiting

theorem begin_inv (topic : Bytes) (batchSize linger maxMemoryBytes : Int) :
    Inv (begin (newBufferedProducer topic batchSize linger maxMemoryBytes)) where
  accounted _ _ failed := by cases failed
  closed closed := by cases closed
  opened _ := ⟨fun _ => rfl, fun _ returned => by cases returned⟩
  closing _ closes := by cases closes
  ended returned := by cases returned

/-! ## Steps that have nothing to do with `Close` or the parked error -/

/-- A step after which the same errors are pending as before, except for those
that a call has just returned. -/
structure Quiet (s s' : ProducerRun) : Prop where
  outcomes : ∀ batch cause, (batch, some cause) ∈ s'.outcomes →
    (batch, some cause) ∈ s.outcomes ∨ ∃ call err, (call, some err) ∈ s'.returned
  returned : ∀ call err, (call, some err) ∈ s.returned → (call, some err) ∈ s'.returned
  closes : ∀ err, (.close, err) ∈ s'.returned ↔ (.close, err) ∈ s.returned
  asyncErr : s'.producer.asyncErr = s.producer.asyncErr ∨
    s'.producer.asyncErr = none ∧ ∃ call err, (call, some err) ∈ s'.returned
  closed : s'.producer.closed = s.producer.closed
  parking : ∀ i, (s'.threads i).parks = (s.threads i).parks
  closing : ∀ i, (s'.threads i).closes = (s.threads i).closes

theorem Inv.quiet {s s' : ProducerRun} (inv : Inv s) (quiet : Quiet s s') : Inv s' where
  accounted := by
    intro batch cause failed
    rcases quiet.outcomes batch cause failed with old | new
    · rcases inv.accounted batch cause old with ⟨call, err, returned⟩ | parked | ⟨i, parking⟩
      · exact .inl ⟨call, err, quiet.returned call err returned⟩
      · rcases quiet.asyncErr with same | ⟨-, new⟩
        · exact .inr (.inl (same ▸ parked))
        · exact .inl new
      · exact .inr (.inr ⟨i, by rw [quiet.parking]; exact parking⟩)
    · exact .inl new
  closed := by
    intro closed
    obtain ⟨parked, parking⟩ := inv.closed (quiet.closed ▸ closed)
    refine ⟨?_, fun i => (quiet.parking i).trans (parking i)⟩
    rcases quiet.asyncErr with same | ⟨none, -⟩
    · exact same.trans parked
    · exact none
  opened := by
    intro opened
    obtain ⟨closing, returned⟩ := inv.opened (quiet.closed ▸ opened)
    exact ⟨fun i => (quiet.closing i).trans (closing i),
      fun err => mt (quiet.closes err).mp (returned err)⟩
  closing := by
    intro i closes
    obtain ⟨only, returned⟩ := inv.closing i ((quiet.closing i).symm.trans closes)
    exact ⟨fun j other => only j ((quiet.closing j).symm.trans other),
      fun err => mt (quiet.closes err).mp (returned err)⟩
  ended := by
    intro ended err
    exact mt (quiet.closes _).mp (inv.ended ((quiet.closes _).mp ended) err)

end ProducerRun

namespace BufferedProducer

variable (p : BufferedProducer)

theorem send_spec (m : ProduceMessage) :
    (p.send m).2.closed = p.closed ∧ ((p.send m).2.asyncErr = p.asyncErr ∨
      (p.send m).2.asyncErr = none ∧ ∃ err, (p.send m).1 = .returns (some err)) := by
  unfold send
  split
  · exact ⟨rfl, .inl rfl⟩
  · split
    · exact ⟨rfl, .inr ⟨rfl, _, rfl⟩⟩
    · dsimp only
      repeat' split
      all_goals exact ⟨rfl, .inl rfl⟩

theorem flush_spec :
    p.flush.2.closed = p.closed ∧ p.flush.2.asyncErr = p.asyncErr := by
  unfold flush
  split <;> exact ⟨rfl, rfl⟩

theorem close_spec :
    p.close.2.closed = true ∧ p.close.2.asyncErr = p.asyncErr ∧
      ((p.closed = true ∧ p.close.1 = .returns none) ∨
        (p.closed = false ∧
          (p.close.1 = .returns none ∨ ∃ batch, p.close.1 = .hands batch false))) := by
  unfold close
  cases closed : p.closed with
  | true => simp [closed]
  | false =>
    rw [if_neg Bool.false_ne_true]
    dsimp only
    split
    · exact ⟨rfl, rfl, .inr ⟨rfl, .inl rfl⟩⟩
    · exact ⟨rfl, rfl, .inr ⟨rfl, .inr ⟨_, rfl⟩⟩⟩

theorem locked_spec {call : ProducerCall} (other : call ≠ .close) :
    (p.locked call).2.closed = p.closed ∧ ((p.locked call).2.asyncErr = p.asyncErr ∨
      (p.locked call).2.asyncErr = none ∧ ∃ err, (p.locked call).1 = .returns (some err)) := by
  cases call with
  | send m => exact p.send_spec m
  | flush => exact ⟨p.flush_spec.1, .inl p.flush_spec.2⟩
  | close => exact absurd rfl other

end BufferedProducer

namespace ProducerRun

section Steps

variable {s : ProducerRun} {i : Nat}

variable {t : ProducerThread} {call : ProducerCall} {batch : List ProduceMessage}

theorem update_same {α : Type} (view : ProducerThread → α) (same : view t = view (s.threads i))
    (j : Nat) :
    view (Function.update s.threads i t j) = view (s.threads j) := by
  by_cases here : j = i
  · subst here
    rw [Function.update_self, same]
  · rw [Function.update_of_ne here]

theorem update_all {α : Type} (view : ProducerThread → α) {value : α}
    (all : ∀ j, view (s.threads j) = value) (new : view t = value) (j : Nat) :
    view (Function.update s.threads i t j) = value :=
  (update_same view (new.trans (all i).symm) j).trans (all j)

theorem sending_closes (other : call ≠ .close) (batch : List ProduceMessage) (again : Bool) :
    (ProducerThread.sending call batch again).closes = false := by
  cases call with
  | close => exact absurd rfl other
  | _ => rfl

theorem quiet_thread {p : BufferedProducer} (parks : t.parks = (s.threads i).parks)
    (closes : t.closes = (s.threads i).closes) (closed : p.closed = s.producer.closed)
    (asyncErr : p.asyncErr = s.producer.asyncErr) :
    Quiet s { s.setThread i t with producer := p } where
  outcomes _ _ failed := .inl failed
  returned _ _ returned := returned
  closes _ := Iff.rfl
  asyncErr := .inl asyncErr
  closed := closed
  parking := update_same ProducerThread.parks parks
  closing := update_same ProducerThread.closes closes

theorem quiet_lockCall (at_i : s.threads i = .locking call) (other : call ≠ .close) :
    Quiet s (s.lockCall i call) := by
  obtain ⟨closed, asyncErr⟩ := s.producer.locked_spec other
  unfold lockCall
  dsimp only
  cases released : (s.producer.locked call).1 with
  | returns err =>
    refine ⟨fun _ _ failed => .inl failed, fun _ _ returned => List.mem_append_left _ returned,
      ?_, ?_, closed, update_same ProducerThread.parks (by rw [at_i]; rfl),
      update_same ProducerThread.closes (by rw [at_i]; rfl)⟩
    · intro err'
      have different : (ProducerCall.close, err') ≠ (call, err) :=
        fun same => other (Prod.mk.inj same).1.symm
      simp [finish, setThread, different]
    · rcases asyncErr with same | ⟨none, err', returned⟩
      · exact .inl same
      · rw [released] at returned
        cases returned
        exact .inr ⟨none, call, err', List.mem_append_right _ (List.mem_singleton_self _)⟩
  | hands batch again =>
    refine ⟨fun _ _ failed => .inl failed, fun _ _ returned => returned, fun _ => Iff.rfl, ?_,
      closed, update_same ProducerThread.parks (by rw [at_i]; rfl),
      update_same ProducerThread.closes (by rw [at_i, sending_closes other]; rfl)⟩
    rcases asyncErr with same | ⟨-, err', returned⟩
    · exact .inl same
    · rw [released] at returned
      cases returned

theorem quiet_lockTimer (at_i : s.threads i = .fired) : Quiet s (s.lockTimer i) := by
  obtain ⟨closed, asyncErr⟩ := s.producer.flush_spec
  unfold lockTimer
  dsimp only
  cases s.producer.flush.1 with
  | returns err => exact quiet_thread (by rw [at_i]; rfl) (by rw [at_i]; rfl) closed asyncErr
  | hands batch again =>
    exact quiet_thread (by rw [at_i]; rfl) (by rw [at_i]; rfl) closed asyncErr

theorem quiet_answerCall {again : Bool} (at_i : s.threads i = .sending call batch again)
    (other : call ≠ .close) (err : Option ClientError) :
    Quiet s (s.answerCall i call batch again err) := by
  have different : ∀ err' err'' : Option ProducerError,
      (ProducerCall.close, err') ≠ (call, err'') :=
    fun _ _ same => other (Prod.mk.inj same).1.symm
  have stays : (s.threads i).closes = false := by rw [at_i, sending_closes other]
  unfold answerCall
  dsimp only
  cases err with
  | none =>
    have kept : ∀ b cause, (b, some cause) ∈ s.outcomes ++ [(batch, none)] →
        (b, some cause) ∈ s.outcomes := by simp
    cases again with
    | true =>
      exact ⟨fun b cause failed => .inl (kept b cause failed), fun _ _ returned => returned,
        fun _ => Iff.rfl, .inl rfl, rfl, update_same ProducerThread.parks (by rw [at_i]; rfl),
        update_same ProducerThread.closes stays.symm⟩
    | false =>
      refine ⟨fun b cause failed => .inl (kept b cause failed),
        fun _ _ returned => List.mem_append_left _ returned, ?_, .inl rfl, rfl,
        update_same ProducerThread.parks (by rw [at_i]; rfl),
        update_same ProducerThread.closes stays.symm⟩
      intro err'
      simp [finish, setThread, different]
  | some cause =>
    refine ⟨?_, fun _ _ returned => List.mem_append_left _ returned, ?_, .inl rfl, rfl,
      update_same ProducerThread.parks (by rw [at_i]; rfl),
      update_same ProducerThread.closes stays.symm⟩
    · intro b cause' failed
      exact .inr ⟨call, _, List.mem_append_right _ (List.mem_singleton_self _)⟩
    · intro err'
      simp [finish, setThread, different]

/-! ## Flushes of the timer that fail, and `Close` -/

theorem inv_of_open (opened : s.producer.closed = false)
    (closing : ∀ j, (s.threads j).closes = false) (returned : ∀ err, (.close, err) ∉ s.returned)
    (pending : s.producer.asyncErr ≠ none ∨ ∃ j, (s.threads j).parks ≠ none) : Inv s where
  accounted _ _ _ := .inr pending
  closed closed := absurd (opened.symm.trans closed) Bool.false_ne_true
  opened _ := ⟨closing, returned⟩
  closing j closes := absurd ((closing j).symm.trans closes) Bool.false_ne_true
  ended ended := absurd ended (returned none)

theorem inv_answerTimer (inv : Inv s) (at_i : s.threads i = .flushing batch)
    {err : Option ClientError} (waits : s.Waits (.answer i err)) :
    Inv (s.answerTimer i batch err) := by
  unfold answerTimer
  dsimp only
  cases err with
  | none =>
    refine inv.quiet ⟨?_, fun _ _ returned => returned, fun _ => Iff.rfl, .inl rfl, rfl,
      update_same ProducerThread.parks (by rw [at_i]; rfl),
      update_same ProducerThread.closes (by rw [at_i]; rfl)⟩
    intro b cause failed
    simp only [setThread, List.mem_append, List.mem_singleton, Prod.mk.injEq, reduceCtorEq,
      and_false, or_false] at failed
    exact .inl failed
  | some cause =>
    have opened : s.producer.closed = false := waits batch at_i
    obtain ⟨closing, returned⟩ := inv.opened opened
    refine inv_of_open opened (update_all ProducerThread.closes closing rfl) returned
      (.inr ⟨i, ?_⟩)
    dsimp only [setThread]
    rw [Function.update_self]
    exact Option.some_ne_none _

theorem inv_park (inv : Inv s) {err : SendError} (at_i : s.threads i = .parking err) :
    Inv { s.setThread i .idle with producer := s.producer.park err } := by
  have parked : (s.producer.park err).asyncErr ≠ none := by
    unfold BufferedProducer.park
    cases free : s.producer.asyncErr <;> simp [free]
  have unchanged : (s.producer.park err).closed = s.producer.closed := by
    unfold BufferedProducer.park
    cases s.producer.asyncErr <;> rfl
  have opened : s.producer.closed = false := by
    by_contra closed
    have none := (inv.closed (Bool.not_eq_false _ ▸ closed)).2 i
    rw [at_i] at none
    cases none
  obtain ⟨closing, returned⟩ := inv.opened opened
  exact inv_of_open (unchanged.trans opened) (update_all ProducerThread.closes closing rfl)
    returned (.inl parked)

theorem inv_of_closed (closed : s.producer.closed = true) (parked : s.producer.asyncErr = none)
    (parking : ∀ j, (s.threads j).parks = none)
    (failed : ∀ batch cause, (batch, some cause) ∈ s.outcomes →
      ∃ call err, (call, some err) ∈ s.returned)
    (closing : ∀ j, (s.threads j).closes = true →
      (∀ k, (s.threads k).closes = true → k = j) ∧ ∀ err, (.close, err) ∉ s.returned)
    (ended : (.close, none) ∈ s.returned → ∀ err, (.close, some err) ∉ s.returned) : Inv s where
  accounted batch cause outcome := .inl (failed batch cause outcome)
  closed _ := ⟨parked, parking⟩
  opened opened := absurd (opened.symm.trans closed) Bool.false_ne_true
  closing := closing
  ended := ended

theorem inv_close (inv : Inv s) (settled : s.Settled) : Inv (s.lockCall i .close) := by
  obtain ⟨closed, asyncErr, outcome⟩ := s.producer.close_spec
  have parked : s.producer.close.2.asyncErr = none := asyncErr.trans settled.parked
  have closes : ∀ j, (s.threads j).closes = false := by
    cases before : s.producer.closed with
    | true => exact (settled.closed before).1
    | false => exact (inv.opened before).1
  unfold lockCall
  simp only [BufferedProducer.locked]
  cases released : s.producer.close.1 with
  | returns err =>
    have nil : err = none := by
      rw [released] at outcome
      rcases outcome with ⟨-, same⟩ | ⟨-, same | ⟨batch, impossible⟩⟩
      · cases same
        rfl
      · cases same
        rfl
      · cases impossible
    have succeeded : ∀ err', (ProducerCall.close, some err') ∉ s.returned := by
      intro err'
      cases before : s.producer.closed with
      | true => exact (settled.closed before).2 err'
      | false => exact (inv.opened before).2 _
    subst nil
    refine inv_of_closed closed parked (update_all ProducerThread.parks settled.parking rfl)
      ?_ ?_ ?_
    · intro batch cause failed
      obtain ⟨call, err, returned⟩ :=
        inv.failed_returned settled.parked settled.parking failed
      exact ⟨call, err, List.mem_append_left _ returned⟩
    · intro j sending
      have idle : (Function.update s.threads i .idle j).closes = false :=
        update_all ProducerThread.closes closes rfl j
      exact absurd (idle.symm.trans sending) Bool.false_ne_true
    · intro _ err'
      simp [finish, setThread, succeeded]
  | hands batch again =>
    have before : s.producer.closed = false := by
      rw [released] at outcome
      rcases outcome with ⟨-, impossible⟩ | ⟨before, -⟩
      · cases impossible
      · exact before
    have returned := (inv.opened before).2
    have only : ∀ k, (Function.update s.threads i (.sending .close batch again) k).closes =
        true → k = i := by
      intro k sending
      by_contra other
      rw [Function.update_of_ne other, closes k] at sending
      cases sending
    refine inv_of_closed closed parked (update_all ProducerThread.parks settled.parking rfl)
      (fun _ _ failed => inv.failed_returned settled.parked settled.parking failed) ?_
      (fun ended => absurd ended (returned none))
    intro j sending
    exact ⟨fun k sending' => (only k sending').trans (only j sending).symm, returned⟩

theorem inv_answerClose (inv : Inv s) {again : Bool}
    (at_i : s.threads i = .sending .close batch again) (err : Option ClientError) :
    Inv (s.answerCall i .close batch again err) := by
  have sends : (s.threads i).closes = true := by
    rw [at_i]
    rfl
  obtain ⟨only, returned⟩ := inv.closing i sends
  have closed : s.producer.closed = true := by
    by_contra opened
    have none := (inv.opened (Bool.not_eq_true _ ▸ opened)).1 i
    exact absurd (none.symm.trans sends) Bool.false_ne_true
  obtain ⟨parked, parking⟩ := inv.closed closed
  -- this was the only `Close` that sends, so there is none any more
  have closes : ∀ {t : ProducerThread} {P : Prop}, t.closes = false →
      ∀ j, (Function.update s.threads i t j).closes = true → P := by
    intro t P none j sending
    by_cases here : j = i
    · rw [here, Function.update_self, none] at sending
      cases sending
    · rw [Function.update_of_ne here] at sending
      exact absurd (only j sending) here
  unfold answerCall
  dsimp only
  cases err with
  | none =>
    have old : ∀ b cause, (b, some cause) ∈ s.outcomes ++ [(batch, none)] →
        ∃ call err, (call, some err) ∈ s.returned := by
      intro b cause failed
      simp only [List.mem_append, List.mem_singleton, Prod.mk.injEq, reduceCtorEq, and_false,
        or_false] at failed
      exact inv.failed_returned parked parking failed
    cases again with
    | true =>
      exact inv_of_closed closed parked (update_all ProducerThread.parks parking rfl) old
        (fun j sending => closes rfl j sending) (fun ended => absurd ended (returned none))
    | false =>
      refine inv_of_closed closed parked (update_all ProducerThread.parks parking rfl) ?_
        (fun j sending => closes rfl j sending) ?_
      · intro b cause failed
        obtain ⟨call, err, reported⟩ := old b cause failed
        exact ⟨call, err, List.mem_append_left _ reported⟩
      · intro _ err
        simp [finish, setThread, returned]
  | some cause =>
    refine inv_of_closed closed parked (update_all ProducerThread.parks parking rfl) ?_
      (fun j sending => closes rfl j sending) ?_
    · intro b cause' failed
      exact ⟨.close, _, List.mem_append_right _ (List.mem_singleton_self _)⟩
    · intro ended
      simp [finish, setThread, returned] at ended

end Steps

theorem inv_step (s : ProducerRun) (event : ProducerEvent) (inv : Inv s) (waits : s.Waits event) :
    Inv (s.step event) := by
  cases event with
  | start i call =>
    unfold step
    dsimp only
    split
    · rename_i at_i
      exact inv.quiet (quiet_thread (by rw [at_i]; rfl) (by rw [at_i]; rfl) rfl rfl)
    · exact inv
  | fire i =>
    unfold step
    dsimp only
    split
    · rename_i at_i _
      exact inv.quiet (quiet_thread (by rw [at_i]; rfl) (by rw [at_i]; rfl) rfl rfl)
    · exact inv
  | lock i =>
    unfold step
    dsimp only
    split
    · rename_i call at_i
      by_cases closing : call = .close
      · subst closing
        exact inv_close inv (waits at_i)
      · exact inv.quiet (quiet_lockCall at_i closing)
    · rename_i at_i
      exact inv.quiet (quiet_lockTimer at_i)
    · rename_i err at_i
      exact inv_park inv at_i
    · exact inv
  | answer i err =>
    unfold step
    dsimp only
    split
    · rename_i call batch again at_i
      by_cases closing : call = .close
      · subst closing
        exact inv_answerClose inv at_i err
      · exact inv.quiet (quiet_answerCall at_i closing err)
    · rename_i batch at_i
      exact inv_answerTimer inv at_i waits
    · exact inv

/-- If `Close` waits for the errors of the timer, every failed batch is
reported by a call. -/
theorem failed_batches_reported (topic : Bytes) (batchSize linger maxMemoryBytes : Int)
    (events : List ProducerEvent)
    (waits : Runs.Guarded step Waits
      (begin (newBufferedProducer topic batchSize linger maxMemoryBytes)) events) :
    ∀ s ∈ Runs.states step (begin (newBufferedProducer topic batchSize linger maxMemoryBytes))
      events, s.Reported := by
  intro s reached
  have inv := Runs.invariant_states inv_step events _
    (begin_inv topic batchSize linger maxMemoryBytes) waits s reached
  exact inv.reported

def sampleProducer : BufferedProducer := newBufferedProducer [116] 10 5 0

/-- A flush of the timer is under way when `Close` is called, and goes well. -/
def patientEvents : List ProducerEvent :=
  [.start 0 (.send ⟨[], [118], 0⟩), .lock 0, .fire 1, .lock 1, .start 2 .close, .lock 2,
    .answer 1 none]

theorem failed_batches_reported_patient :
    (Runs.final step (begin sampleProducer) patientEvents).returned =
      [(.send ⟨[], [118], 0⟩, none), (.close, none)] ∧
    ∀ s ∈ Runs.states step (begin sampleProducer) patientEvents, s.Reported := by
  refine ⟨by decide +kernel, failed_batches_reported [116] 10 5 0 patientEvents ?_⟩
  refine ⟨trivial, fun closing => absurd closing (by decide), trivial,
    fun closing => absurd closing (by decide), trivial, fun _ => ⟨rfl, ?_, ?_⟩, trivial, trivial⟩
  · intro i
    rcases i with _ | _ | _ | i <;> rfl
  · intro closed
    cases closed

/-- The timer flushes the buffer, the server is overloaded, and the error is
parked; then `Close` returns nil. -/
def lossyEvents : List ProducerEvent :=
  [.start 0 (.send ⟨[], [118], 0⟩), .lock 0, .fire 1, .lock 1,
    .answer 1 (some (.exhausted (.batch [116] 1) (some .overloaded))), .lock 1, .start 2 .close,
    .lock 2]

theorem close_drops_parked_error :
    let s := Runs.final step (begin sampleProducer) lossyEvents
    s.returned = [(.send ⟨[], [118], 0⟩, none), (.close, none)] ∧
      s.outcomes = [([⟨[], [118], 0⟩], some (.exhausted (.batch [116] 1) (some .overloaded)))] ∧
      ¬s.Reported := by
  have returned : (Runs.final step (begin sampleProducer) lossyEvents).returned =
      [(.send ⟨[], [118], 0⟩, none), (.close, none)] := by decide +kernel
  have outcomes : (Runs.final step (begin sampleProducer) lossyEvents).outcomes =
      [([⟨[], [118], 0⟩], some (.exhausted (.batch [116] 1) (some .overloaded)))] := by
    decide +kernel
  refine ⟨returned, outcomes, ?_⟩
  intro reported
  refine reported ?_ ?_ _ _ (outcomes ▸ List.mem_singleton_self _)
  · intro call err failed
    rw [returned] at failed
    simp at failed
  · rw [returned]
    simp

end ProducerRun

end NyaQueue
