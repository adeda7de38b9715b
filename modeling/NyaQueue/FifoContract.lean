import NyaQueue.Consume
import NyaQueue.FifoDelivery
import NyaQueue.PublishBatch

/-!
# The delivery contract of FIFO topics

Every reader gets the messages of its partition in offset order, each once, as
`Read` gives them and the broker decompresses them, and what it gets is not
touched by what other groups do.  The interleaved calls of the previous module
are also compared with the calls of the broker: run without interruption they
do the same.
-/

set_option autoImplicit false

namespace NyaQueue

namespace FifoRun

variable {name : Bytes}

/-! ## Whole calls -/

/-- Where a call ends up when its loop has given `outcome`. -/
def ended (name : Bytes) (s : FifoRun) (reader : Reader) (now : Time) (written : Bool) :
    Except ConsumeError (List Message × Nat) → FifoRun
  | .error _ => s.setCall reader none
  | .ok (msgs, lastOffset) =>
      if msgs = [] then s.setCall reader none
      else s.commit name reader ⟨0, lastOffset, msgs, .commit⟩ now written

section Alone

variable {b : Broker} {t : Topic} {p : Partition} {reader : Reader} {s : FifoRun}

theorem setCall_setCall (s : FifoRun) (reader : Reader) (call call' : Option ConsumeCall) :
    (s.setCall reader call).setCall reader call' = s.setCall reader call' := by
  unfold setCall
  rw [Function.update_idem]

theorem setCall_commit (s : FifoRun) (reader : Reader) (call : Option ConsumeCall)
    (left lastOffset : Nat) (msgs : List Message) (now : Time) (written : Bool) :
    (s.setCall reader call).commit name reader ⟨left, lastOffset, msgs, .commit⟩ now written =
      s.commit name reader ⟨0, lastOffset, msgs, .commit⟩ now written := by
  unfold setCall commit
  rw [Function.update_idem]

theorem advance_setCall (there : s.broker.topics name = some t)
    (found : t.partition reader.2 = .ok p) (call : ConsumeCall) (now : Time) (written : Bool) :
    (s.setCall reader (some call)).step name (.advance reader now written) =
      match call.phase with
      | .check => (s.setCall reader (some call)).check reader call p
      | .read => (s.setCall reader (some call)).read reader call p
      | .commit => (s.setCall reader (some call)).commit name reader call now written := by
  have topic : (s.setCall reader (some call)).broker.topics name = some t := there
  obtain ⟨left, currentOffset, msgs, phase⟩ := call
  cases phase <;>
    simp only [step, setCall_self, advance, topic, Option.bind_some, found, Except.toOption]

theorem leave_setCall (s : FifoRun) (reader : Reader) (call : Option ConsumeCall)
    (left offset : Nat) (msgs : List Message) (phase : ConsumePhase) :
    (s.setCall reader call).leave reader ⟨left, offset, msgs, phase⟩ =
      s.leave reader ⟨left, offset, msgs, .commit⟩ :=
  setCall_setCall s reader call _

theorem leave_alone (there : s.broker.topics name = some t)
    (found : t.partition reader.2 = .ok p) (left offset : Nat) (msgs : List Message)
    (now : Time) (written : Bool) :
    Runs.Repeats (step name) (.advance reader now written)
      (s.leave reader ⟨left, offset, msgs, .commit⟩)
      (ended name s reader now written (.ok (msgs, offset))) := by
  unfold leave ended
  by_cases nothing : msgs = []
  · simp only [if_pos nothing]
    exact .refl ..
  · simp only [if_neg nothing]
    apply Runs.Repeats.head
    rw [advance_setCall there found]
    dsimp only
    rw [setCall_commit]
    exact .refl ..

theorem round_alone (fifo : s.broker.schedulers name = some .fifo)
    (there : s.broker.topics name = some t) (found : t.partition reader.2 = .ok p)
    (fuel offset : Nat) (msgs : List Message) (threshold : Int) (now : Time) (written : Bool) :
    Runs.Repeats (step name) (.advance reader now written)
      (s.setCall reader (some ⟨fuel + 1, offset, msgs, .check⟩))
      (match (s.broker.consumeFrom name reader.2 offset threshold).1 with
       | .error _ => s.leave reader ⟨fuel + 1, offset, msgs, .commit⟩
       | .ok (msg, nextOff) =>
          s.setCall reader (some ⟨fuel, nextOff, msgs ++ [msg], .check⟩)) := by
  rw [Broker.consumeFrom_fifo fifo there found, Partition.fifoNext]
  apply Runs.Repeats.head
  rw [advance_setCall there found]
  by_cases beyond : p.highWaterMark < offset
  · simp only [check, if_pos beyond, Nat.add_one_ne_zero, if_false, leave_setCall]
    exact .refl ..
  · simp only [check, if_neg beyond, Nat.add_one_ne_zero, if_false, setCall_setCall]
    apply Runs.Repeats.head
    rw [advance_setCall there found]
    simp only [read]
    cases p.read offset with
    | error cause =>
      simp only [leave_setCall]
      exact .refl ..
    | ok raw =>
      dsimp only
      have same : (s.setCall reader (some ⟨fuel + 1, offset, msgs, .read⟩)).broker = s.broker := rfl
      rw [same]
      cases s.broker.decompressMessage raw with
      | error cause =>
        simp only [leave_setCall]
        exact .refl ..
      | ok msg =>
        simp only [setCall_setCall]
        exact .refl ..

theorem ended_last (name : Bytes) (s : FifoRun) (reader : Reader) (now : Time) (written : Bool)
    {msgs : List Message} {lastOffset offset : Nat} (last : msgs ≠ [] → lastOffset = offset) :
    ended name s reader now written (.ok (msgs, lastOffset)) =
      ended name s reader now written (.ok (msgs, offset)) := by
  by_cases nothing : msgs = []
  · simp [ended, nothing]
  · rw [last nothing]

theorem ended_of_error {threshold : Nat → Int} {cause : ConsumeError} {offset i : Nat}
    (failed : s.broker.consumeFrom name reader.2 offset (threshold i) = (.error cause, s.broker))
    {msgs : List Message} {lastOffset : Nat} (last : msgs ≠ [] → lastOffset = offset)
    (fuel : Nat) (now : Time) (written : Bool) :
    (Broker.consumeLoop name reader.2 threshold (fuel + 1) i s.broker offset msgs lastOffset).2 =
      s.broker ∧
    ended name s reader now written (Broker.consumeLoop name reader.2 threshold (fuel + 1) i
        s.broker offset msgs lastOffset).1 =
      ended name s reader now written (.ok (msgs, offset)) := by
  unfold Broker.consumeLoop
  simp only [failed]
  split
  · exact ⟨rfl, ended_last name s reader now written last⟩
  · split
    · exact ⟨rfl, ended_last name s reader now written last⟩
    · rename_i nothing
      refine ⟨rfl, ?_⟩
      simp [ended, not_not.mp nothing]

theorem loop_alone (fifo : s.broker.schedulers name = some .fifo)
    (there : s.broker.topics name = some t) (found : t.partition reader.2 = .ok p)
    (threshold : Nat → Int) (now : Time) (written : Bool) :
    ∀ fuel i offset msgs lastOffset, (msgs ≠ [] → lastOffset = offset) →
      (Broker.consumeLoop name reader.2 threshold fuel i s.broker offset msgs lastOffset).2 =
        s.broker ∧
      Runs.Repeats (step name) (.advance reader now written)
        (s.setCall reader (some ⟨fuel, offset, msgs, .check⟩))
        (ended name s reader now written (Broker.consumeLoop name reader.2 threshold fuel i
          s.broker offset msgs lastOffset).1) := by
  intro fuel
  induction fuel with
  | zero =>
    intro i offset msgs lastOffset last
    refine ⟨rfl, Runs.Repeats.head ?_⟩
    rw [advance_setCall there found]
    simp only [check, if_true, leave_setCall]
    have finished := ended_last name s reader now written last
    rw [Broker.consumeLoop, finished]
    exact leave_alone there found 0 offset msgs now written
  | succ fuel ih =>
    intro i offset msgs lastOffset last
    have round := round_alone fifo there found fuel offset msgs (threshold i) now written
    have same : (s.broker.consumeFrom name reader.2 offset (threshold i)).2 = s.broker := by
      rw [Broker.consumeFrom_fifo fifo there found]
    cases outcome : s.broker.consumeFrom name reader.2 offset (threshold i) with
    | mk result after =>
      rw [outcome] at same round
      cases same
      cases result with
      | error cause =>
        obtain ⟨unchanged, finished⟩ := ended_of_error outcome last fuel now written
        refine ⟨unchanged, round.trans ?_⟩
        rw [finished]
        exact leave_alone there found (fuel + 1) offset msgs now written
      | ok next =>
        obtain ⟨unchanged, rest⟩ :=
          ih (i + 1) next.2 (msgs ++ [next.1]) next.2 fun _ => rfl
        unfold Broker.consumeLoop
        simp only [outcome]
        exact ⟨unchanged, round.trans rest⟩

theorem setCall_of_idle (idle : s.calls reader = none) :
    s.setCall reader none =
      { s with delivered := Function.update s.delivered reader (s.delivered reader ++ []) } := by
  unfold setCall
  rw [← idle, Function.update_eq_self, List.append_nil, Function.update_eq_self]

theorem consume_alone (fifo : s.broker.schedulers name = some .fifo)
    (there : s.broker.topics name = some t) (found : t.partition reader.2 = .ok p)
    (idle : s.calls reader = none) (maxMessages : Int) (env : ConsumeEnv) :
    ∃ n, Runs.final (step name) s (.consume reader maxMessages ::
        List.replicate n (.advance reader env.now env.written)) =
      { broker := (s.broker.consumeBatch name reader.1 reader.2 maxMessages env).2
        calls := s.calls
        delivered := Function.update s.delivered reader (s.delivered reader ++
          (s.broker.consumeBatch name reader.1 reader.2 maxMessages env).1.msgs) } := by
  obtain ⟨same, n, run⟩ := loop_alone fifo there found env.threshold env.now env.written
    maxMessages.toNat 0 (s.broker.startOffset reader.1 name reader.2) [] 0 fun absurd => by
      cases absurd rfl
  refine ⟨n, ?_⟩
  rw [Runs.final_cons]
  simp only [step, idle]
  rw [run]
  unfold Broker.consumeBatch
  dsimp only
  cases outcome : Broker.consumeLoop name reader.2 env.threshold maxMessages.toNat 0 s.broker
      (s.broker.startOffset reader.1 name reader.2) [] 0 with
  | mk result after =>
    rw [outcome] at same
    cases same
    rcases result with cause | ⟨_ | ⟨m, rest⟩, lastOffset⟩
    · exact setCall_of_idle idle
    · exact setCall_of_idle idle
    · simp only [ended, commit, reduceCtorEq, if_false]
      rw [← idle, Function.update_eq_self]
      cases s.broker.commit reader.1 name reader.2 (int64OfOffset lastOffset) env.now
          env.written with
      | mk committed after =>
        cases committed <;> rfl

end Alone

theorem takesGroups (name : Bytes) (s : FifoRun) :
    Broker.TakesGroups (step name) broker .publishGroup s.broker.snap name
      (fun s' => s'.broker.snap = s.broker.snap ∧ s' = { s with broker := s'.broker })
      (fun _ _ _ _ => True) where
  fits_step := by
    rintro s' t partIdx msgs env ⟨snap, same⟩ there
    refine ⟨?_, ?_⟩
    · simp only [step, there, Broker.setTopic_snap, snap]
    · rw [same]
      simp only [step, there]
  broker_step := by
    rintro s' t partIdx msgs env ⟨snap, -⟩ there
    simp only [step, there, snap]
  acked_kept _ _ _ _ _ _ _ _ _ _ _ := trivial
  acked_ok _ _ _ _ _ _ _ _ _ _ _ _ _ _ := trivial

theorem publishBatch_events (s : FifoRun) {t : Topic} (there : s.broker.topics name = some t)
    (msgs : List Message) (env : BatchEnv) :
    let keys := Broker.groupKeys s.broker.snap.cfg env msgs
    Runs.final (step name) s
        (Broker.groupEvents .publishGroup s.broker.snap.cfg env msgs (keys.length = 1) keys) =
      { s with broker := (Broker.publishBatchWith s.broker.snap s.broker name msgs env).2 } := by
  obtain ⟨⟨-, same⟩, broker, -⟩ :=
    Broker.publishBatch_run (takesGroups name s) ⟨rfl, rfl⟩ there msgs env
  exact same.trans (by rw [broker])

/-! ## Groups do not see each other -/

/-- The events that are not the calls of another group. -/
def concerns (group : Bytes) : FifoEvent → Bool
  | .publish _ _ => true
  | .publishGroup _ _ _ => true
  | .consume reader _ => reader.1 = group
  | .advance reader _ _ => reader.1 = group

/-- Two states that look the same to `group`. -/
structure Alike (name group : Bytes) (s s' : FifoRun) : Prop where
  broker : ∃ store store', s.broker.offsetStore = some store ∧
    s'.broker = { s.broker with offsetStore := some store' } ∧
    ∀ id, store'.load group name id = store.load group name id
  calls : ∀ id, s'.calls (group, id) = s.calls (group, id)
  delivered : ∀ id, s'.delivered (group, id) = s.delivered (group, id)

section Isolation

variable {group : Bytes} {s s' : FifoRun} {reader : Reader}

theorem Alike.setCall (alike : Alike name group s s') (reader : Reader)
    (call : Option ConsumeCall) :
    Alike name group (s.setCall reader call) (s'.setCall reader call) := by
  refine ⟨alike.broker, ?_, alike.delivered⟩
  intro id
  unfold FifoRun.setCall
  by_cases own : (group, id) = reader
  · subst own
    simp only [Function.update_self]
  · simp only [Function.update_of_ne own]
    exact alike.calls id

theorem Alike.setCall_other (alike : Alike name group s s') (other : reader.1 ≠ group)
    (call : Option ConsumeCall) : Alike name group (s.setCall reader call) s' := by
  refine ⟨alike.broker, ?_, alike.delivered⟩
  intro id
  have elsewhere : (group, id) ≠ reader := fun same => other (congrArg Prod.fst same).symm
  exact (alike.calls id).trans (Function.update_of_ne elsewhere ..).symm

theorem Alike.commit (alike : Alike name group s s') (own : reader.1 = group)
    (call : ConsumeCall) (now : Time) (written : Bool) :
    Alike name group (s.commit name reader call now written)
      (s'.commit name reader call now written) := by
  obtain ⟨store, store', stored, broker, loads⟩ := alike.broker
  subst own
  refine ⟨⟨(store.commit reader.1 name reader.2 (int64OfOffset call.currentOffset) now written).2,
    (store'.commit reader.1 name reader.2 (int64OfOffset call.currentOffset) now written).2,
    ?_, ?_, ?_⟩, ?_, ?_⟩
  · simp only [FifoRun.commit, commit_offsetStore name s.broker stored]
  · simp only [FifoRun.commit, commit_offsetStore name s.broker stored, broker]
    rfl
  · intro id
    by_cases here : id = reader.2
    · rw [here, OffsetStore.load_commit_self, OffsetStore.load_commit_self]
    · have elsewhere : ¬ (id = reader.2 ∧ reader.1 = reader.1) := fun both => here both.1
      rw [OffsetStore.load_commit_other _ elsewhere, OffsetStore.load_commit_other _ elsewhere,
        loads]
  · exact (alike.setCall reader none).calls
  · intro id
    by_cases here : (reader.1, id) = reader
    · simp only [FifoRun.commit, here, Function.update_self]
      rw [← here, alike.delivered]
    · simp only [FifoRun.commit, Function.update_of_ne here]
      exact alike.delivered id

theorem Alike.commit_other (alike : Alike name group s s') (other : reader.1 ≠ group)
    (call : ConsumeCall) (now : Time) (written : Bool) :
    Alike name group (s.commit name reader call now written) s' := by
  obtain ⟨store, store', stored, broker, loads⟩ := alike.broker
  have elsewhere : ∀ id, (group, id) ≠ reader :=
    fun id same => other (congrArg Prod.fst same).symm
  refine ⟨⟨(store.commit reader.1 name reader.2 (int64OfOffset call.currentOffset) now written).2,
    store', ?_, ?_, ?_⟩, ?_, ?_⟩
  · simp only [FifoRun.commit, commit_offsetStore name s.broker stored]
  · simp only [FifoRun.commit, commit_offsetStore name s.broker stored, broker]
  · intro id
    rw [OffsetStore.load_commit_other _ fun both => other both.2.symm, loads]
  · exact (alike.setCall_other other none).calls
  · intro id
    exact (alike.delivered id).trans (Function.update_of_ne (elsewhere id) ..).symm

theorem Alike.topics (alike : Alike name group s s') : s'.broker.topics = s.broker.topics := by
  obtain ⟨store, store', -, broker, -⟩ := alike.broker
  rw [broker]

theorem Alike.snap (alike : Alike name group s s') : s'.broker.snap = s.broker.snap := by
  obtain ⟨store, store', -, broker, -⟩ := alike.broker
  rw [broker]

theorem Alike.startOffset (alike : Alike name group s s') (id : Int) :
    s'.broker.startOffset group name id = s.broker.startOffset group name id := by
  obtain ⟨store, store', stored, broker, loads⟩ := alike.broker
  unfold Broker.startOffset
  rw [broker, stored]
  dsimp only
  rw [loads]

theorem Alike.leave (alike : Alike name group s s') (reader : Reader) (call : ConsumeCall) :
    Alike name group (s.leave reader call) (s'.leave reader call) :=
  alike.setCall reader _

theorem Alike.advance (alike : Alike name group s s') (own : reader.1 = group)
    (call : ConsumeCall) (now : Time) (written : Bool) :
    Alike name group (s.advance name reader call now written)
      (s'.advance name reader call now written) := by
  unfold FifoRun.advance
  rw [alike.topics]
  cases (s.broker.topics name).bind fun t => (t.partition reader.2).toOption with
  | none => exact alike.setCall reader none
  | some p =>
    cases call.phase with
    | check =>
      dsimp only
      unfold check
      split
      · exact alike.leave reader call
      · split
        · exact alike.leave reader call
        · exact alike.setCall reader _
    | read =>
      dsimp only
      unfold read
      cases p.read call.currentOffset with
      | error cause => exact alike.leave reader call
      | ok raw =>
        have same : s'.broker.decompressMessage raw = s.broker.decompressMessage raw := by
          unfold Broker.decompressMessage
          rw [alike.snap]
        dsimp only
        rw [same]
        cases s.broker.decompressMessage raw with
        | error cause => exact alike.leave reader call
        | ok msg => exact alike.setCall reader _
    | commit => exact alike.commit own call now written

theorem advance_cases (s : FifoRun) (reader : Reader) (call : ConsumeCall) (now : Time)
    (written : Bool) :
    (∃ call', s.advance name reader call now written = s.setCall reader call') ∨
      s.advance name reader call now written = s.commit name reader call now written := by
  unfold advance check read leave
  cases (s.broker.topics name).bind fun t => (t.partition reader.2).toOption with
  | none => exact .inl ⟨none, rfl⟩
  | some p =>
    cases call.phase with
    | check =>
      dsimp only
      split
      · exact .inl ⟨_, rfl⟩
      · split <;> exact .inl ⟨_, rfl⟩
    | read =>
      dsimp only
      split
      · exact .inl ⟨_, rfl⟩
      · split <;> exact .inl ⟨_, rfl⟩
    | commit => exact .inr rfl

theorem Alike.append (alike : Alike name group s s') (t : Topic) :
    Alike name group { s with broker := s.broker.setTopic name t }
      { s' with broker := s'.broker.setTopic name t } := by
  obtain ⟨store, store', stored, broker, loads⟩ := alike.broker
  refine ⟨⟨store, store', stored, ?_, loads⟩, alike.calls, alike.delivered⟩
  simp only [broker]
  rfl

theorem alike_step (alike : Alike name group s s') {event : FifoEvent}
    (concerned : concerns group event = true) :
    Alike name group (s.step name event) (s'.step name event) := by
  cases event with
  | publish msg env =>
    obtain ⟨store, store', stored, broker, loads⟩ := alike.broker
    refine ⟨⟨store, store', ?_, ?_, loads⟩, alike.calls, alike.delivered⟩
    · exact (Broker.publishWith_store ..).trans stored
    · simp only [step, Broker.publish, broker]
      exact Broker.publishWith_offsetStore ..
  | publishGroup partIdx msgs env =>
    simp only [step, alike.topics, alike.snap]
    cases s.broker.topics name with
    | none => exact alike
    | some t => exact alike.append _
  | consume reader maxMessages =>
    have own : reader.1 = group := of_decide_eq_true concerned
    subst own
    have calls := alike.calls reader.2
    simp only [step, calls, alike.startOffset]
    cases s.calls reader with
    | none => exact alike.setCall reader _
    | some call => exact alike
  | advance reader now written =>
    have own : reader.1 = group := of_decide_eq_true concerned
    subst own
    have calls := alike.calls reader.2
    simp only [step, calls]
    cases s.calls reader with
    | none => exact alike
    | some call => exact alike.advance rfl call now written

theorem alike_skip (alike : Alike name group s s') {event : FifoEvent}
    (other : concerns group event = false) : Alike name group (s.step name event) s' := by
  cases event with
  | publish msg env => cases other
  | publishGroup partIdx msgs env => cases other
  | consume reader maxMessages =>
    have other : reader.1 ≠ group := of_decide_eq_false other
    simp only [step]
    cases s.calls reader with
    | none => exact alike.setCall_other other _
    | some call => exact alike
  | advance reader now written =>
    have other : reader.1 ≠ group := of_decide_eq_false other
    simp only [step]
    cases s.calls reader with
    | none => exact alike
    | some call =>
      dsimp only
      rcases advance_cases s reader call now written with ⟨call', sets⟩ | commits
      · rw [sets]
        exact alike.setCall_other other call'
      · rw [commits]
        exact alike.commit_other other call now written

end Isolation

/-! ## The contract -/

theorem inv_start {b : Broker} (fresh : FreshTopic b name) : Inv name (start b) := by
  obtain ⟨t, there, ahead⟩ := fresh.topic
  obtain ⟨store, stored, unread⟩ := fresh.store
  refine ⟨t, store, there, stored, ?_⟩
  intro id p found
  refine ⟨ahead id p found, ?_⟩
  intro group
  refine ⟨readsOf_nil b p, ?_, ?_, .inl ⟨rfl, unread group id⟩⟩
  · intro call running
    cases running
  · intro call running
    cases running

/-- What the reader `(group, id)` has been given in state `s`: the messages at
offsets `1, …, k`, with the offset after them committed. -/
def Delivers (name : Bytes) (s : FifoRun) (group : Bytes) (id : Int) : Prop :=
  ∃ t, s.broker.topics name = some t ∧ ∀ p, t.partition id = .ok p →
    ∃ k ≤ p.highWaterMark,
      List.Forall₂ (fun offset m => ∃ raw, p.read offset = .ok raw ∧
        s.broker.decompressMessage raw = .ok m) (List.range' 1 k) (s.delivered (group, id)) ∧
      (0 < k → ∃ store, s.broker.offsetStore = some store ∧
        store.load group name id = .ok (int64OfOffset (k + 1)))

theorem Inv.delivers {s : FifoRun} (inv : Inv name s) (group : Bytes) (id : Int) :
    Delivers name s group id := by
  obtain ⟨t, store, there, stored, readers⟩ := inv.topic
  refine ⟨t, there, ?_⟩
  intro p found
  obtain ⟨ahead, inv⟩ := readers id p found
  have own := inv group
  have reads : ReadsOf s.broker p (s.delivered (group, id)) := own.reads.left
  refine ⟨(s.delivered (group, id)).length, ?_, reads.forall₂, ?_⟩
  · by_cases nothing : s.delivered (group, id) = []
    · simp [nothing]
    · have bound := reads.bound nothing
      unfold Partition.Ahead at ahead
      unfold Partition.highWaterMark
      split <;> omega
  · intro positive
    refine ⟨store, stored, ?_⟩
    rcases own.stored with ⟨nothing, -⟩ | ⟨-, load⟩
    · simp [nothing] at positive
    · exact load

/-- FIFO delivery: whatever is published and however the calls interleave, each
reader has been given the messages of its partition in order, and the calls of
other groups make no difference to it. -/
theorem fifo_delivers_in_order {b : Broker} (fresh : FreshTopic b name)
    (events : List FifoEvent) (group : Bytes) (id : Int) :
    (∀ s ∈ Runs.states (step name) (start b) events, Delivers name s group id) ∧
    (Runs.final (step name) (start b) events).delivered (group, id) =
      (Runs.final (step name) (start b) (events.filter (concerns group))).delivered
        (group, id) := by
  constructor
  · intro s reached
    have inv := Runs.invariant_of_step (fun (s : FifoRun) e (inv : Inv name s) => inv_step inv e)
      events (start b) (inv_start fresh) s reached
    exact inv.delivers group id
  · obtain ⟨store, stored, -⟩ := fresh.store
    have same : Alike name group (start b) (start b) :=
      ⟨⟨store, store, stored, by rw [← stored]; rfl, fun _ => rfl⟩, fun _ => rfl, fun _ => rfl⟩
    have alike := Runs.related_filter (step name) (concerns group) (Alike name group)
      (fun s s' e holds own => alike_step holds own)
      (fun s s' e holds other => alike_skip holds other) events _ _ same
    exact (alike.delivered id).symm

theorem fresh_createTopic {b b' : Broker} {logs : List Log} {store : OffsetStore}
    (created : b.createTopic name .fifo logs = some b') (stored : b.offsetStore = some store)
    (unread : ∀ group partIdx, ∃ cause, store.load group name partIdx = .error cause) :
    FreshTopic b' name := by
  obtain ⟨-, store', scheduler, t, there, partitions⟩ := Broker.createTopic_ok created
  refine ⟨⟨t, there, ?_⟩, scheduler, store, store'.trans stored, unread⟩
  intro id p found
  obtain ⟨log, rfl⟩ := partitions id p found
  exact Partition.ahead_opened ..

end FifoRun

/-- A broker with an empty offset store. -/
def sampleBroker (compressionType : Int) : Broker :=
  Broker.new sampleLibrary { defaultConfig with compressionType := compressionType }
    (some (OffsetStore.empty 0))

/-- The broker with one topic of one partition. -/
def sampleTopic (compressionType : Int) (mode : ScheduleMode) : Broker :=
  ((sampleBroker compressionType).createTopic [116] mode [Log.empty]).getD
    (sampleBroker compressionType)

theorem sampleTopic_created (compressionType : Int) (mode : ScheduleMode) :
    (sampleBroker compressionType).createTopic [116] mode [Log.empty] =
      some (sampleTopic compressionType mode) := rfl

theorem sampleTopic_fresh (compressionType : Int) :
    FreshTopic (sampleTopic compressionType .fifo) [116] :=
  FifoRun.fresh_createTopic (sampleTopic_created compressionType .fifo) rfl fun _ _ => ⟨_, rfl⟩

def samplePublish : FifoEvent :=
  .publish (sampleMessage 5 7 118) ⟨0, false, 8, steadyEnv 9⟩

namespace FifoRun

/-- Two groups read one published message, one step of theirs at a time. -/
def sampleEvents : List FifoEvent :=
  [samplePublish, .consume ([103], 0) 10, .consume ([104], 0) 1] ++
    (List.replicate 4 [.advance ([103], 0) 10 true, .advance ([104], 0) 10 true]).flatten

theorem fifo_delivers_in_order_sample :
    Delivers [116] (Runs.final (step [116]) (start (sampleTopic 0 .fifo)) sampleEvents) [103] 0 ∧
    ((Runs.final (step [116]) (start (sampleTopic 0 .fifo)) sampleEvents).delivered
      ([103], 0)).map Message.value = [[118]] :=
  ⟨(fifo_delivers_in_order (sampleTopic_fresh 0) sampleEvents [103] 0).1 _
    (Runs.final_mem_states ..), by decide⟩

/-- With compression the message handed out is not the one `Read` returns. -/
theorem delivered_differs_from_read :
    FreshTopic (sampleTopic compressionSnappy .fifo) [116] ∧
    ∃ t p raw m,
      let s := Runs.final (step [116]) (start (sampleTopic compressionSnappy .fifo)) sampleEvents
      s.broker.topics [116] = some t ∧ t.partition 0 = .ok p ∧
        p.read 1 = .ok raw ∧ raw.value = [1, 0, 118] ∧
        s.delivered ([103], 0) = [m] ∧ m.value = [118] ∧
        ∀ k, ¬ List.Forall₂ (fun offset m => p.read offset = .ok m) (List.range' 1 k)
          (s.delivered ([103], 0)) := by
  have delivered : (Runs.final (step [116]) (start (sampleTopic compressionSnappy .fifo))
      sampleEvents).delivered ([103], 0) = [((sampleMessage 5 7 118).stampProduce 8).stamp 9] := by
    decide
  refine ⟨sampleTopic_fresh _, _, _,
    { ((sampleMessage 5 7 118).stampProduce 8).stamp 9 with value := [1, 0, 118] }, _, rfl, rfl,
    by decide, rfl, delivered, rfl, ?_⟩
  intro k same
  dsimp only at same
  rw [delivered] at same
  have count : k = 1 := by simpa using same.length_eq
  subst count
  cases same with
  | cons first rest => exact absurd first (by decide)

end FifoRun

end NyaQueue
