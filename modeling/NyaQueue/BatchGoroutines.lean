import NyaQueue.PublishBatch

/-!
# The goroutines of `PublishBatch`

`PublishBatch` starts one goroutine a group.  Each waits for the I/O gate,
appends its messages under the lock of the partition and then enters the
outcome into the results of its messages; a single group is appended without
the gate.  Here the goroutines take these steps in any order.  They touch
different partitions and different results, so every schedule that lets them
all finish ends as `publishBatchWith` does.
-/

set_option autoImplicit false

namespace NyaQueue

namespace Broker

/-- How far the goroutine of a group has come. -/
inductive GroupPhase where
  | waiting
  | appended (outcome : Except PublishError (List Nat))
  | settled

def GroupPhase.isWaiting : GroupPhase → Bool
  | .waiting => true
  | _ => false

def GroupPhase.isSettled : GroupPhase → Bool
  | .settled => true
  | _ => false

/-- The call between its two ends. -/
structure BatchRun where
  topic : Topic
  results : List PublishResult
  phase : Int → GroupPhase

/-- What the goroutines of one call share. -/
structure BatchCall where
  snap : ConfigSnapshot
  msgs : List Message
  env : BatchEnv

namespace BatchCall

def keys (call : BatchCall) : List Int := groupKeys call.snap.cfg call.env call.msgs

def members (call : BatchCall) (partIdx : Int) : List (Message × Nat) :=
  group call.snap.cfg call.env call.msgs partIdx

def check (call : BatchCall) (i : Nat) (m : Message) : PublishResult :=
  checkMessage call.snap.cfg call.env i m

/-- What comes of the group for `partIdx` when its turn is at `t`. -/
def attempt (call : BatchCall) (t : Topic) (partIdx : Int) :
    Except PublishError (List Nat) × Topic :=
  if (call.keys.length = 1 : Bool) ∨ call.env.gate partIdx then
    appendPartitionBatch call.snap t partIdx ((call.members partIdx).map Prod.fst)
      (call.env.append partIdx)
  else (.error .gate, t)

def start (call : BatchCall) (t : Topic) : BatchRun where
  topic := t
  results := call.msgs.mapIdx call.check
  phase _ := .waiting

/-- The next step of the goroutine for `partIdx`. -/
def step (call : BatchCall) (s : BatchRun) (partIdx : Int) : BatchRun :=
  if partIdx ∈ call.keys then
    match s.phase partIdx with
    | .waiting =>
        let attempt := call.attempt s.topic partIdx
        { s with
          topic := attempt.2
          phase := Function.update s.phase partIdx (.appended attempt.1) }
    | .appended outcome =>
        { s with
          results := settle outcome (call.members partIdx) s.results
          phase := Function.update s.phase partIdx .settled }
    | .settled => s
  else s

/-- `eg.Wait` returns when every goroutine has finished. -/
def complete (call : BatchCall) (s : BatchRun) : Bool :=
  call.keys.all fun partIdx => (s.phase partIdx).isSettled

end BatchCall

/-- `PublishBatch` with its goroutines scheduled as given, once they have all
finished. -/
def publishBatchScheduled (snap : ConfigSnapshot) (b : Broker) (topicName : Bytes)
    (msgs : List Message) (env : BatchEnv) (schedule : List Int) :
    Option (List PublishResult × Broker) :=
  match b.topics topicName with
  | none => some (msgs.map fun _ => { err := some (.topicNotFound topicName) }, b)
  | some t =>
      let call : BatchCall := ⟨snap, msgs, env⟩
      let s := Runs.final call.step (call.start t) schedule
      if call.complete s then some (s.results, b.setTopic topicName s.topic) else none

/-! ## One group -/

section Attempt

variable (call : BatchCall)

variable (snap : ConfigSnapshot) (t : Topic)

theorem appendPartitionBatch_local {t t' : Topic} {partIdx : Int}
    (same : t.partition partIdx = t'.partition partIdx) (msgs : List Message) (env : AppendEnv) :
    (appendPartitionBatch snap t partIdx msgs env).1 =
        (appendPartitionBatch snap t' partIdx msgs env).1 ∧
      (appendPartitionBatch snap t partIdx msgs env).2.partition partIdx =
        (appendPartitionBatch snap t' partIdx msgs env).2.partition partIdx := by
  unfold appendPartitionBatch
  rw [same]
  cases there : t'.partition partIdx with
  | error bounds => exact ⟨rfl, by rw [same, there]⟩
  | ok p =>
    have set : ∀ q, (t.setPartition partIdx q).partition partIdx =
        (t'.setPartition partIdx q).partition partIdx := by
      intro q
      rw [Topic.partition_setPartition_self (same.trans there),
        Topic.partition_setPartition_self there]
    dsimp only
    split
    · exact ⟨rfl, set _⟩
    · split
      · exact ⟨rfl, by rw [same, there]⟩
      · exact ⟨rfl, set _⟩

theorem appendPartitionBatch_other {partIdx id : Int} (other : id ≠ partIdx) (msgs : List Message)
    (env : AppendEnv) :
    (appendPartitionBatch snap t partIdx msgs env).2.partition id = t.partition id := by
  unfold appendPartitionBatch
  cases there : t.partition partIdx with
  | error bounds => rfl
  | ok p =>
    have valid := ((t.partition_ok_iff partIdx p).mp there).1
    dsimp only
    split
    · exact Topic.partition_setPartition_ne valid other _
    · split
      · rfl
      · exact Topic.partition_setPartition_ne valid other _

theorem appendPartitionBatch_name (partIdx : Int) (msgs : List Message) (env : AppendEnv) :
    (appendPartitionBatch snap t partIdx msgs env).2.name = t.name := by
  unfold appendPartitionBatch
  split
  · rfl
  · split
    · rfl
    · dsimp only
      split <;> rfl

theorem attempt_local {t t' : Topic} {partIdx : Int}
    (same : t.partition partIdx = t'.partition partIdx) :
    (call.attempt t partIdx).1 = (call.attempt t' partIdx).1 ∧
      (call.attempt t partIdx).2.partition partIdx =
        (call.attempt t' partIdx).2.partition partIdx := by
  unfold BatchCall.attempt
  split
  · exact appendPartitionBatch_local call.snap same _ _
  · exact ⟨rfl, same⟩

theorem attempt_other {partIdx id : Int} (other : id ≠ partIdx) :
    (call.attempt t partIdx).2.partition id = t.partition id := by
  unfold BatchCall.attempt
  split
  · exact appendPartitionBatch_other call.snap t other _ _
  · rfl

theorem attempt_shape (partIdx : Int) :
    (call.attempt t partIdx).2.name = t.name ∧
      (call.attempt t partIdx).2.partitions.length = t.partitions.length := by
  unfold BatchCall.attempt
  split
  · exact ⟨appendPartitionBatch_name .., (appendPartitionBatch_appended ..).length⟩
  · exact ⟨rfl, rfl⟩

end Attempt

/-! ## Every schedule -/

/-- The result of message `i` once the outcome of its group is entered. -/
def entered (outcome : Except PublishError (List Nat)) (batch : List (Message × Nat)) (i : Nat)
    (result : PublishResult) : PublishResult :=
  match (batch.map Prod.snd).idxOf? i with
  | none => result
  | some j =>
      match outcome with
      | .error cause => { result with err := some cause }
      | .ok offsets => { result with offset := offsets.getD j 0 }

theorem entered_of_not_mem {batch : List (Message × Nat)} {i : Nat}
    (outside : i ∉ batch.map Prod.snd) (outcome : Except PublishError (List Nat))
    (result : PublishResult) : entered outcome batch i result = result := by
  unfold entered
  rw [List.idxOf?_eq_none_iff.mpr outside]

section Schedule

variable {call : BatchCall} {t : Topic} {s : BatchRun}

variable {partIdx : Int}

theorem not_mem_members {i : Nat} (other : call.env.partIdx i ≠ partIdx) :
    i ∉ (call.members partIdx).map Prod.snd := by
  intro member
  obtain ⟨⟨m', k⟩, inside, rfl⟩ := List.mem_map.mp member
  obtain ⟨m, -, -, here, -⟩ := (mem_group_iff ..).mp inside
  exact other here

theorem not_mem_members_of_keys (unused : partIdx ∉ call.keys) (i : Nat) :
    i ∉ (call.members partIdx).map Prod.snd := by
  intro member
  obtain ⟨⟨m', k⟩, inside, rfl⟩ := List.mem_map.mp member
  obtain ⟨m, at_i, clean, here, -⟩ := (mem_group_iff ..).mp inside
  exact unused ((mem_groupKeys_iff ..).mpr ⟨k, m, at_i, clean, here⟩)

/-- Where a run from `t` stands: what each goroutine has done is what it would
have done alone. -/
structure Apart (call : BatchCall) (t : Topic) (s : BatchRun) : Prop where
  name : s.topic.name = t.name
  count : s.topic.partitions.length = t.partitions.length
  partitions : ∀ id, s.topic.partition id =
    bif (s.phase id).isWaiting then t.partition id else (call.attempt t id).2.partition id
  outcomes : ∀ id outcome, s.phase id = .appended outcome → outcome = (call.attempt t id).1
  unused : ∀ id, id ∉ call.keys → s.phase id = .waiting
  results : ∀ i, s.results[i]? = call.msgs[i]?.map fun m =>
    bif (s.phase (call.env.partIdx i)).isSettled then
      entered (call.attempt t (call.env.partIdx i)).1 (call.members (call.env.partIdx i)) i
        (call.check i m)
    else call.check i m

theorem apart_start (call : BatchCall) (t : Topic) : Apart call t (call.start t) where
  name := rfl
  count := rfl
  partitions _ := rfl
  outcomes _ _ impossible := by cases impossible
  unused _ _ := rfl
  results _ := List.getElem?_mapIdx

theorem apart_append (apart : Apart call t s) (used : partIdx ∈ call.keys)
    (waiting : s.phase partIdx = .waiting) :
    Apart call t { s with
      topic := (call.attempt s.topic partIdx).2
      phase := Function.update s.phase partIdx (.appended (call.attempt s.topic partIdx).1) } := by
  have untouched : s.topic.partition partIdx = t.partition partIdx := by
    rw [apart.partitions, waiting]
    rfl
  obtain ⟨outcome, partition⟩ := attempt_local call untouched
  obtain ⟨name, count⟩ := attempt_shape call s.topic partIdx
  refine ⟨name.trans apart.name, count.trans apart.count, ?_, ?_, ?_, ?_⟩
  · intro id
    dsimp only
    by_cases same : id = partIdx
    · subst same
      rw [Function.update_self]
      exact partition
    · rw [Function.update_of_ne same, ← apart.partitions]
      exact attempt_other call s.topic same
  · intro id outcome' appended
    dsimp only at appended
    by_cases same : id = partIdx
    · subst same
      rw [Function.update_self] at appended
      cases appended
      exact outcome
    · rw [Function.update_of_ne same] at appended
      exact apart.outcomes id outcome' appended
  · intro id unused
    dsimp only
    have other : id ≠ partIdx := by
      rintro rfl
      exact unused used
    rw [Function.update_of_ne other]
    exact apart.unused id unused
  · intro i
    dsimp only
    rw [apart.results i]
    by_cases here : call.env.partIdx i = partIdx
    · rw [here, Function.update_self, waiting]
      rfl
    · rw [Function.update_of_ne here]

theorem apart_settle (apart : Apart call t s) (used : partIdx ∈ call.keys)
    {outcome : Except PublishError (List Nat)} (appended : s.phase partIdx = .appended outcome) :
    Apart call t { s with
      results := settle outcome (call.members partIdx) s.results
      phase := Function.update s.phase partIdx .settled } := by
  refine ⟨apart.name, apart.count, ?_, ?_, ?_, ?_⟩
  · intro id
    dsimp only
    rw [apart.partitions id]
    by_cases same : id = partIdx
    · rw [same, Function.update_self, appended]
      rfl
    · rw [Function.update_of_ne same]
  · intro id outcome' appended'
    dsimp only at appended'
    by_cases same : id = partIdx
    · rw [same, Function.update_self] at appended'
      cases appended'
    · rw [Function.update_of_ne same] at appended'
      exact apart.outcomes id outcome' appended'
  · intro id unused
    dsimp only
    have other : id ≠ partIdx := by
      rintro rfl
      exact unused used
    rw [Function.update_of_ne other]
    exact apart.unused id unused
  · intro i
    dsimp only
    have settled : (settle outcome (call.members partIdx) s.results)[i]? =
        s.results[i]?.map (entered outcome (call.members partIdx) i) := List.getElem?_mapIdx
    rw [settled, apart.results i, Option.map_map]
    congr 1
    funext m
    rw [Function.comp_apply]
    by_cases here : call.env.partIdx i = partIdx
    · rw [here, Function.update_self, appended, apart.outcomes partIdx outcome appended]
      rfl
    · rw [Function.update_of_ne here, entered_of_not_mem (not_mem_members here)]

theorem apart_step (apart : Apart call t s) (partIdx : Int) :
    Apart call t (call.step s partIdx) := by
  unfold BatchCall.step
  split
  · rename_i used
    split
    · rename_i waiting
      exact apart_append apart used waiting
    · rename_i outcome appended
      exact apart_settle apart used appended
    · exact apart
  · exact apart

theorem apart_final (call : BatchCall) (t : Topic) (schedule : List Int) :
    Apart call t (Runs.final call.step (call.start t) schedule) :=
  Runs.invariant_of_step (fun s partIdx (apart : Apart call t s) => apart_step apart partIdx)
    schedule _ (apart_start call t) _ (Runs.final_mem_states call.step schedule _)

/-- What all schedules end with. -/
structure Ended (call : BatchCall) (t : Topic) (s : BatchRun) : Prop where
  name : s.topic.name = t.name
  count : s.topic.partitions.length = t.partitions.length
  partitions : ∀ id, s.topic.partition id =
    if id ∈ call.keys then (call.attempt t id).2.partition id else t.partition id
  results : ∀ i, s.results[i]? = call.msgs[i]?.map fun m =>
    entered (call.attempt t (call.env.partIdx i)).1 (call.members (call.env.partIdx i)) i
      (call.check i m)

theorem ended_of_complete (apart : Apart call t s) (complete : call.complete s = true) :
    Ended call t s := by
  have settled : ∀ id ∈ call.keys, (s.phase id).isSettled = true :=
    List.all_eq_true.mp complete
  refine ⟨apart.name, apart.count, ?_, ?_⟩
  · intro id
    rw [apart.partitions id]
    by_cases used : id ∈ call.keys
    · have done := settled id used
      rw [if_pos used]
      cases phase : s.phase id with
      | settled => rfl
      | waiting =>
        rw [phase] at done
        cases done
      | appended outcome =>
        rw [phase] at done
        cases done
    · rw [if_neg used, apart.unused id used]
      rfl
  · intro i
    rw [apart.results i]
    by_cases used : call.env.partIdx i ∈ call.keys
    · rw [settled _ used]
      rfl
    · congr 1
      funext m
      rw [apart.unused _ used, entered_of_not_mem (not_mem_members_of_keys used i)]
      rfl

theorem ended_unique {s' : BatchRun} (ended : Ended call t s) (ended' : Ended call t s') :
    s.topic = s'.topic ∧ s.results = s'.results := by
  constructor
  · apply Topic.ext_partition (ended.name.trans ended'.name.symm)
      (ended.count.trans ended'.count.symm)
    intro id
    rw [ended.partitions, ended'.partitions]
  · apply List.ext_getElem?
    intro i
    rw [ended.results, ended'.results]

end Schedule

/-! ## One group after the other -/

section Sequential

variable (call : BatchCall)

theorem step_twice (s : BatchRun) {partIdx : Int} (used : partIdx ∈ call.keys)
    (waiting : s.phase partIdx = .waiting) :
    call.step (call.step s partIdx) partIdx = {
      topic := (call.attempt s.topic partIdx).2
      results := settle (call.attempt s.topic partIdx).1 (call.members partIdx) s.results
      phase := Function.update s.phase partIdx .settled } := by
  have first : call.step s partIdx = { s with
      topic := (call.attempt s.topic partIdx).2
      phase := Function.update s.phase partIdx (.appended (call.attempt s.topic partIdx).1) } := by
    simp only [BatchCall.step, if_pos used, waiting]
  rw [first]
  simp only [BatchCall.step, if_pos used, Function.update_self, Function.update_idem]

theorem appendGroups_cons (partIdx : Int) (rest : List Int) (results : List PublishResult)
    (t : Topic) :
    appendGroups call.snap call.env call.msgs (call.keys.length = 1) (partIdx :: rest) results t =
      appendGroups call.snap call.env call.msgs (call.keys.length = 1) rest
        (settle (call.attempt t partIdx).1 (call.members partIdx) results)
        (call.attempt t partIdx).2 := by
  rw [appendGroups, BatchCall.attempt]
  split <;> rfl

theorem appendGroups_scheduled (chosen : List Int) (s : BatchRun) (distinct : chosen.Nodup)
    (used : ∀ id ∈ chosen, id ∈ call.keys) (waiting : ∀ id ∈ chosen, s.phase id = .waiting) :
    let s' := Runs.final call.step s (chosen.flatMap fun id => [id, id])
    appendGroups call.snap call.env call.msgs (call.keys.length = 1) chosen s.results s.topic =
        (s'.results, s'.topic) ∧
      (∀ id ∈ chosen, s'.phase id = .settled) ∧
      ∀ id, id ∉ chosen → s'.phase id = s.phase id := by
  induction chosen generalizing s with
  | nil => exact ⟨rfl, by simp, fun _ _ => rfl⟩
  | cons partIdx rest ih =>
    obtain ⟨fresh, later⟩ := List.nodup_cons.mp distinct
    have twice := step_twice call s (used partIdx List.mem_cons_self)
      (waiting partIdx List.mem_cons_self)
    obtain ⟨groups, settled, kept⟩ := ih (call.step (call.step s partIdx) partIdx) later
      (fun id member => used id (List.mem_cons_of_mem _ member)) (by
        intro id member
        have other : id ≠ partIdx := by
          rintro rfl
          exact fresh member
        rw [twice]
        dsimp only
        rw [Function.update_of_ne other]
        exact waiting id (List.mem_cons_of_mem _ member))
    refine ⟨?_, ?_, ?_⟩
    · rw [appendGroups_cons]
      refine Eq.trans ?_ groups
      rw [twice]
    · intro id member
      rcases List.mem_cons.mp member with rfl | inside
      · refine (kept id fresh).trans ?_
        rw [twice]
        exact Function.update_self ..
      · exact settled id inside
    · intro id outside
      refine (kept id (List.not_mem_of_not_mem_cons outside)).trans ?_
      rw [twice]
      exact Function.update_of_ne (List.ne_of_not_mem_cons outside) ..

/-- The schedule that takes one group after the other. -/
def BatchCall.inTurn (call : BatchCall) : List Int := call.keys.flatMap fun id => [id, id]

theorem inTurn_ends (t : Topic) :
    let s := Runs.final call.step (call.start t) call.inTurn
    call.complete s = true ∧
      appendGroups call.snap call.env call.msgs (call.keys.length = 1) call.keys
        (call.msgs.mapIdx call.check) t = (s.results, s.topic) := by
  obtain ⟨groups, settled, -⟩ := appendGroups_scheduled call call.keys (call.start t)
    (List.nodup_dedup _) (fun _ member => member) (fun _ _ => rfl)
  refine ⟨List.all_eq_true.mpr ?_, groups⟩
  intro id member
  rw [BatchCall.inTurn, settled id member]
  rfl

end Sequential

theorem publishBatchWith_ended (snap : ConfigSnapshot) {b : Broker} {topicName : Bytes} {t : Topic}
    (there : b.topics topicName = some t) (msgs : List Message) (env : BatchEnv) :
    ∃ s, Ended ⟨snap, msgs, env⟩ t s ∧
      publishBatchWith snap b topicName msgs env = (s.results, b.setTopic topicName s.topic) := by
  obtain ⟨complete, groups⟩ := inTurn_ends ⟨snap, msgs, env⟩ t
  refine ⟨_, ended_of_complete (apart_final ⟨snap, msgs, env⟩ t _) complete, ?_⟩
  unfold publishBatchWith
  simp only [there]
  exact congrArg (fun ended => (ended.1, b.setTopic topicName ended.2)) groups

theorem publishBatchScheduled_inTurn (snap : ConfigSnapshot) (b : Broker) (topicName : Bytes)
    (msgs : List Message) (env : BatchEnv) :
    publishBatchScheduled snap b topicName msgs env (BatchCall.inTurn ⟨snap, msgs, env⟩) =
      some (publishBatchWith snap b topicName msgs env) := by
  unfold publishBatchScheduled publishBatchWith
  cases b.topics topicName with
  | none => rfl
  | some t =>
    obtain ⟨complete, groups⟩ := inTurn_ends ⟨snap, msgs, env⟩ t
    dsimp only
    rw [if_pos complete]
    exact congrArg (fun ended => some (ended.1, b.setTopic topicName ended.2)) groups.symm

theorem publishBatchScheduled_eq {snap : ConfigSnapshot} {b : Broker} {topicName : Bytes}
    {msgs : List Message} {env : BatchEnv} {schedule : List Int}
    {finished : List PublishResult × Broker}
    (ran : publishBatchScheduled snap b topicName msgs env schedule = some finished) :
    finished = publishBatchWith snap b topicName msgs env := by
  have inTurn := publishBatchScheduled_inTurn snap b topicName msgs env
  unfold publishBatchScheduled at ran inTurn
  cases there : b.topics topicName with
  | none =>
    simp only [there] at ran inTurn
    exact Option.some.inj (ran.symm.trans inTurn)
  | some t =>
    simp only [there] at ran inTurn
    have complete := (inTurn_ends ⟨snap, msgs, env⟩ t).1
    rw [if_pos complete] at inTurn
    split at ran
    · rename_i finishes
      obtain ⟨topic, results⟩ := ended_unique
        (ended_of_complete (apart_final ⟨snap, msgs, env⟩ t schedule) finishes)
        (ended_of_complete (apart_final ⟨snap, msgs, env⟩ t _) complete)
      rw [topic, results] at ran
      exact Option.some.inj (ran.symm.trans inTurn)
    · cases ran

end Broker

end NyaQueue
