import NyaQueue.BalancerRange
import NyaQueue.BatchGoroutines
import NyaQueue.Lib.AcquireRelease

/-!
# Publishes in flight

Two choices and DQN count the publishes in flight: `SelectPartition` adds one to
the partition it returns, and `OnPublishComplete` takes it back.  `Publish` and
`PublishBatch` make both calls.  Here are the calls that each of them makes, exit
by exit, and what the counters hold while many of them run.
-/

set_option autoImplicit false

namespace NyaQueue

/-- `SelectPartition` has returned a partition, or `OnPublishComplete` is called
for one. -/
abbrev TrackerCall := Use Int

namespace Broker

/-- The calls of `Publish`. -/
def publishCalls (snap : ConfigSnapshot) (b : Broker) (topicName : Bytes) (msg : Message)
    (env : PublishEnv) : List TrackerCall :=
  if tooLarge snap.cfg msg then []
  else
    match snap.codec.encode msg.value with
    | .error _ => []
    | .ok _ =>
        match b.topics topicName with
        | none => []
        | some t =>
            if env.throttled then [.acquire env.partIdx]
            else
              match t.partition env.partIdx with
              | .error _ => [.acquire env.partIdx]
              | .ok _ => [.acquire env.partIdx, .release env.partIdx]

/-- The calls of `PublishBatch` while it looks at message `i`. -/
def checkCalls (cfg : Config) (env : BatchEnv) (i : Nat) (m : Message) : List TrackerCall :=
  if tooLarge cfg m then []
  else if env.throttled i then [.acquire (env.partIdx i), .release (env.partIdx i)]
  else [.acquire (env.partIdx i)]

def selectCalls (cfg : Config) (env : BatchEnv) (msgs : List Message) : List TrackerCall :=
  msgs.zipIdx.flatMap fun entry => checkCalls cfg env entry.2 entry.1

end Broker

namespace Broker.BatchCall

/-- The calls of the goroutine for a group, or of the call itself if the group is
the only one. -/
def groupCalls (call : BatchCall) (t : Topic) (partIdx : Int) : List TrackerCall :=
  if partIdx ∈ call.keys then
    if (call.keys.length = 1 : Bool) ∨ call.env.gate partIdx then
      match t.partition partIdx with
      | .error _ => []
      | .ok _ => List.replicate (call.members partIdx).length (.release partIdx)
    else []
  else []

end Broker.BatchCall

/-- A call of `Publish` or of `PublishBatch`, with the broker at the moment when it
looks up the topic. -/
inductive PublishCall where
  | publish (snap : ConfigSnapshot) (b : Broker) (topicName : Bytes) (msg : Message)
      (env : PublishEnv)
  | batch (b : Broker) (topicName : Bytes) (call : Broker.BatchCall)

namespace PublishCall

/-- The topic has `n` partitions, if it is there. -/
def Has (n : Nat) : PublishCall → Prop
  | .publish _ b topicName _ _ => ∀ t, b.topics topicName = some t → t.partitions.length = n
  | .batch b topicName _ => ∀ t, b.topics topicName = some t → t.partitions.length = n

/-- The calls that the call may make, in their order; the goroutines of a batch run
in any. -/
def IsTrace (trace : List TrackerCall) : PublishCall → Prop
  | .publish snap b topicName msg env => trace = Broker.publishCalls snap b topicName msg env
  | .batch b topicName call =>
      (b.topics topicName = none → trace = []) ∧
      ∀ t, b.topics topicName = some t → ∃ completions,
        trace = Broker.selectCalls call.snap.cfg call.env call.msgs ++ completions ∧
        ∀ partIdx, completions.filter (fun use => use.key = partIdx) = call.groupCalls t partIdx

/-- A `Publish` that gets as far as the balancer is not refused by backpressure,
and no group of a `PublishBatch` is refused at the I/O gate. -/
def Unrefused : PublishCall → Prop
  | .publish snap b topicName msg env =>
      tooLarge snap.cfg msg = false → (∃ packed, snap.codec.encode msg.value = .ok packed) →
        (b.topics topicName).isSome → env.throttled = false
  | .batch b topicName call =>
      (b.topics topicName).isSome → ∀ partIdx ∈ call.keys,
        call.keys.length = 1 ∨ call.env.gate partIdx = true

end PublishCall

/-! ## The calls and the answers -/

/-- What the answer of a `Publish` tells about its calls. -/
def callsFor (partIdx : Int) : Except PublishError (Int × Nat) → List TrackerCall
  | .ok _ => [.acquire partIdx, .release partIdx]
  | .error (.append _ _) => [.acquire partIdx, .release partIdx]
  | .error .throttled => [.acquire partIdx]
  | .error (.partitionOutOfRange _ _) => [.acquire partIdx]
  | .error _ => []

theorem Broker.publishCalls_eq (snap : ConfigSnapshot) (b : Broker) (topicName : Bytes)
    (msg : Message) (env : PublishEnv) :
    publishCalls snap b topicName msg env =
      callsFor env.partIdx (publishWith snap b topicName msg env).1 := by
  unfold publishCalls publishWith
  by_cases large : tooLarge snap.cfg msg = true
  · rw [if_pos large, if_pos large]
    rfl
  · rw [if_neg large, if_neg large]
    cases snap.codec.encode msg.value with
    | error cause => rfl
    | ok packed =>
      dsimp only
      cases b.topics topicName with
      | none => rfl
      | some t =>
        dsimp only
        by_cases throttled : env.throttled = true
        · rw [if_pos throttled, if_pos throttled]
          rfl
        · rw [if_neg throttled, if_neg throttled]
          cases t.partition env.partIdx with
          | error bounds => rfl
          | ok p =>
            dsimp only
            cases (p.appendBatch [Message.stampProduce { msg with value := packed }
              env.produceTime] env.append).1 with
            | error cause => rfl
            | ok offsets => rfl

/-! ## One call -/

namespace PublishCall

/-- The partitions that were chosen are among `n`. -/
def InRange (n : Nat) (trace : List TrackerCall) : Prop :=
  ∀ partIdx : Int, .acquire partIdx ∈ trace → 0 ≤ partIdx ∧ partIdx < n

theorem partition_of_range {t : Topic} {n : Nat} (count : t.partitions.length = n) {partIdx : Int}
    (range : 0 ≤ partIdx ∧ partIdx < n) : ∃ p, t.partition partIdx = .ok p := by
  have inside : partIdx.toNat < t.partitions.length := by omega
  exact ⟨_, (Topic.partition_ok_iff t partIdx _).mpr
    ⟨range.1, List.getElem?_eq_getElem inside⟩⟩

theorem publish_balanced_iff {n : Nat} {snap : ConfigSnapshot} {b : Broker} {topicName : Bytes}
    {msg : Message} {env : PublishEnv} (has : (publish snap b topicName msg env).Has n)
    (range : InRange n (Broker.publishCalls snap b topicName msg env)) :
    Use.Balanced (Broker.publishCalls snap b topicName msg env) ↔
      (publish snap b topicName msg env).Unrefused := by
  have nothing : Use.Balanced ([] : List TrackerCall) := ⟨Use.ordered_nil, fun _ => rfl⟩
  unfold Broker.publishCalls at range ⊢
  by_cases large : tooLarge snap.cfg msg = true
  · rw [if_pos large]
    refine ⟨fun _ small => ?_, fun _ => nothing⟩
    rw [large] at small
    cases small
  · rw [if_neg large] at range ⊢
    cases encoded : snap.codec.encode msg.value with
    | error cause =>
      refine ⟨fun _ _ packs => ?_, fun _ => nothing⟩
      obtain ⟨packed, ok⟩ := packs
      rw [encoded] at ok
      cases ok
    | ok packed =>
      rw [encoded] at range
      dsimp only at range ⊢
      cases there : b.topics topicName with
      | none =>
        refine ⟨fun _ _ _ present => ?_, fun _ => nothing⟩
        rw [there] at present
        cases present
      | some t =>
        rw [there] at range
        dsimp only at range ⊢
        by_cases throttled : env.throttled = true
        · rw [if_pos throttled]
          constructor
          · intro balanced
            have even := balanced.even env.partIdx
            simp [Use.acquired, Use.released] at even
          · intro unrefused
            have not := unrefused (by simpa using large) ⟨packed, encoded⟩
              (by rw [there]; rfl)
            rw [throttled] at not
            cases not
        · rw [if_neg throttled] at range ⊢
          have chosen : 0 ≤ env.partIdx ∧ env.partIdx < n := by
            apply range
            cases t.partition env.partIdx with
            | error _ => exact List.mem_cons_self
            | ok _ => exact List.mem_cons_self
          obtain ⟨p, found⟩ := partition_of_range (has t there) chosen
          rw [found]
          exact ⟨fun _ _ _ _ => by simpa using throttled, fun _ => Use.balanced_pair _⟩

theorem entries_counts (cfg : Config) (env : BatchEnv) (partIdx : Int)
    (entries : List (Message × Nat)) :
    let calls := entries.flatMap fun entry => Broker.checkCalls cfg env entry.2 entry.1
    Use.acquired partIdx calls = Use.released partIdx calls +
      (entries.filter fun entry => (Broker.checkMessage cfg env entry.2 entry.1).err.isNone ∧
        env.partIdx entry.2 = partIdx).length := by
  intro calls
  induction entries with
  | nil => rfl
  | cons entry rest ih =>
    have here : Use.acquired partIdx (Broker.checkCalls cfg env entry.2 entry.1) =
        Use.released partIdx (Broker.checkCalls cfg env entry.2 entry.1) +
          ([entry].filter fun entry => (Broker.checkMessage cfg env entry.2 entry.1).err.isNone ∧
            env.partIdx entry.2 = partIdx).length := by
      unfold Broker.checkCalls Broker.checkMessage
      split_ifs with large throttled
      · simp [Use.acquired, Use.released, large]
      · simp [Use.acquired, Use.released, large, throttled, List.count_cons]
      · by_cases same : env.partIdx entry.2 = partIdx
        · simp [Use.acquired, Use.released, large, throttled, same]
        · simp [Use.acquired, Use.released, large, throttled, same]
    simp only [calls, List.flatMap_cons] at ih ⊢
    rw [← List.singleton_append, List.filter_append, List.length_append, Use.acquired_append,
      Use.released_append, here, ih]
    omega

theorem selectCalls_counts (call : Broker.BatchCall) (partIdx : Int) :
    Use.acquired partIdx (Broker.selectCalls call.snap.cfg call.env call.msgs) =
      Use.released partIdx (Broker.selectCalls call.snap.cfg call.env call.msgs) +
        (call.members partIdx).length := by
  unfold Broker.BatchCall.members Broker.group
  rw [List.length_map]
  exact entries_counts call.snap.cfg call.env partIdx call.msgs.zipIdx

theorem selectCalls_ordered (cfg : Config) (env : BatchEnv) (msgs : List Message) :
    Use.Ordered (Broker.selectCalls cfg env msgs) := by
  apply Use.Ordered.flatMap
  intro entry _
  unfold Broker.checkCalls
  split_ifs
  · exact Use.ordered_nil
  · exact (Use.balanced_pair _).ordered
  · exact Use.ordered_acquire _

theorem mem_keys_iff (call : Broker.BatchCall) (partIdx : Int) :
    partIdx ∈ call.keys ↔ 0 < (call.members partIdx).length := by
  rw [Broker.BatchCall.keys, Broker.mem_groupKeys_iff, List.length_pos_iff_exists_mem]
  constructor
  · rintro ⟨i, m, there, clean, chosen⟩
    exact ⟨(m.stampProduce call.env.produceTime, i),
      (Broker.mem_group_iff ..).mpr ⟨m, there, clean, chosen, rfl⟩⟩
  · rintro ⟨⟨m', i⟩, inside⟩
    obtain ⟨m, there, clean, chosen, -⟩ := (Broker.mem_group_iff ..).mp inside
    exact ⟨i, m, there, clean, chosen⟩

section Completions

variable {call : Broker.BatchCall} {t : Topic} {completions : List TrackerCall}
  (groups : ∀ partIdx,
    completions.filter (fun use => use.key = partIdx) = call.groupCalls t partIdx)

include groups

theorem completions_acquired (partIdx : Int) : Use.acquired partIdx completions = 0 := by
  unfold Use.acquired
  rw [← List.count_filter (p := fun use : TrackerCall => use.key = partIdx) (by simp [Use.key]),
    groups, Broker.BatchCall.groupCalls]
  split_ifs
  · cases t.partition partIdx with
    | error _ => rfl
    | ok _ => simp [List.count_replicate]
  · rfl
  · rfl

theorem completions_released (partIdx : Int) :
    Use.released partIdx completions =
      (call.groupCalls t partIdx).count (.release partIdx) := by
  unfold Use.released
  rw [← groups, List.count_filter (by simp [Use.key])]

end Completions

theorem groupCalls_le (call : Broker.BatchCall) (t : Topic) (partIdx : Int) :
    (call.groupCalls t partIdx).count (.release partIdx) ≤ (call.members partIdx).length := by
  unfold Broker.BatchCall.groupCalls
  split_ifs
  · cases t.partition partIdx with
    | error _ => exact Nat.zero_le _
    | ok _ => simp
  · exact Nat.zero_le _
  · exact Nat.zero_le _

theorem groupCalls_all_iff (call : Broker.BatchCall) {t : Topic} {partIdx : Int}
    (member : partIdx ∈ call.keys) (valid : ∃ p, t.partition partIdx = .ok p) :
    (call.groupCalls t partIdx).count (.release partIdx) = (call.members partIdx).length ↔
      call.keys.length = 1 ∨ call.env.gate partIdx = true := by
  obtain ⟨p, found⟩ := valid
  have some_message := (mem_keys_iff call partIdx).mp member
  unfold Broker.BatchCall.groupCalls
  rw [if_pos member, found]
  by_cases admitted : (call.keys.length = 1 : Bool) ∨ call.env.gate partIdx
  · rw [if_pos admitted]
    simpa using admitted
  · rw [if_neg admitted]
    constructor
    · intro none
      rw [List.count_nil] at none
      omega
    · intro either
      exact absurd (by simpa using either) admitted

theorem batch_ordered {call : Broker.BatchCall} {t : Topic} {completions : List TrackerCall}
    (groups : ∀ partIdx,
      completions.filter (fun use => use.key = partIdx) = call.groupCalls t partIdx) :
    Use.Ordered (Broker.selectCalls call.snap.cfg call.env call.msgs ++ completions) := by
  refine (selectCalls_ordered call.snap.cfg call.env call.msgs).append fun m partIdx => ?_
  have fewer : Use.released partIdx (completions.take m) ≤ Use.released partIdx completions :=
    (List.take_sublist m completions).count_le _
  have group := groupCalls_le call t partIdx
  rw [completions_released groups] at fewer
  rw [selectCalls_counts]
  omega

variable {trace : List TrackerCall}

theorem IsTrace.ordered {call : PublishCall} (isTrace : call.IsTrace trace) :
    Use.Ordered trace := by
  cases call with
  | publish snap b topicName msg env =>
    obtain rfl : trace = Broker.publishCalls snap b topicName msg env := isTrace
    rw [Broker.publishCalls_eq]
    unfold callsFor
    split
    · exact (Use.balanced_pair _).ordered
    · exact (Use.balanced_pair _).ordered
    · exact Use.ordered_acquire _
    · exact Use.ordered_acquire _
    · exact Use.ordered_nil
  | batch b topicName call =>
    cases there : b.topics topicName with
    | none =>
      rw [isTrace.1 there]
      exact Use.ordered_nil
    | some t =>
      obtain ⟨completions, rfl, groups⟩ := isTrace.2 t there
      exact batch_ordered groups

theorem batch_balanced_iff {n : Nat} {b : Broker} {topicName : Bytes} {call : Broker.BatchCall}
    (has : (batch b topicName call).Has n) (isTrace : (batch b topicName call).IsTrace trace)
    (range : InRange n trace) :
    Use.Balanced trace ↔ (batch b topicName call).Unrefused := by
  cases there : b.topics topicName with
  | none =>
    rw [isTrace.1 there]
    refine ⟨fun _ present => ?_, fun _ => ⟨Use.ordered_nil, fun _ => rfl⟩⟩
    rw [there] at present
    cases present
  | some t =>
    obtain ⟨completions, rfl, groups⟩ := isTrace.2 t there
    -- the balance of a partition is that of its group
    have even_iff : ∀ partIdx,
        Use.acquired partIdx (Broker.selectCalls call.snap.cfg call.env call.msgs ++
          completions) = Use.released partIdx (Broker.selectCalls call.snap.cfg call.env
            call.msgs ++ completions) ↔
        (call.groupCalls t partIdx).count (.release partIdx) =
          (call.members partIdx).length := by
      intro partIdx
      rw [Use.acquired_append, Use.released_append, completions_acquired groups,
        completions_released groups, selectCalls_counts]
      omega
    have valid : ∀ partIdx ∈ call.keys, ∃ p, t.partition partIdx = .ok p := by
      intro partIdx member
      apply partition_of_range (has t there) (range partIdx _)
      have some_message := (mem_keys_iff call partIdx).mp member
      have counts := selectCalls_counts call partIdx
      exact List.mem_append_left _ (List.count_pos_iff.mp (by unfold Use.acquired at counts; omega))
    constructor
    · intro balanced _ partIdx member
      exact (groupCalls_all_iff call member (valid partIdx member)).mp
        ((even_iff partIdx).mp (balanced.even partIdx))
    · intro unrefused
      refine ⟨batch_ordered groups, fun partIdx => (even_iff partIdx).mpr ?_⟩
      by_cases member : partIdx ∈ call.keys
      · exact (groupCalls_all_iff call member (valid partIdx member)).mpr
          (unrefused (by rw [there]; rfl) partIdx member)
      · have empty : (call.members partIdx).length = 0 := by
          rw [mem_keys_iff] at member
          omega
        have few := groupCalls_le call t partIdx
        omega

theorem balanced_iff {n : Nat} {call : PublishCall} (has : call.Has n)
    (isTrace : call.IsTrace trace) (range : InRange n trace) :
    Use.Balanced trace ↔ call.Unrefused := by
  cases call with
  | publish snap b topicName msg env =>
    obtain rfl : trace = Broker.publishCalls snap b topicName msg env := isTrace
    exact publish_balanced_iff has range
  | batch b topicName call => exact batch_balanced_iff has isTrace range

end PublishCall

/-! ## Many calls -/

/-- A balancer that counts the publishes in flight. -/
inductive CountingBalancer (F : Type) where
  | twoChoices (p : PowerOfTwoChoices F)
  | dqn (d : DQNBalancer F)

variable {F : Type} [FloatArith F]

namespace CountingBalancer

def inflight : CountingBalancer F → Option (List Int64)
  | .twoChoices p => p.inflight
  | .dqn d => d.inflight

def selectPartition (bal : CountingBalancer F) (n : Nat) (draws : Draws F) :
    Option Nat × CountingBalancer F :=
  match bal with
  | .twoChoices p => let choice := p.selectPartition n draws; (choice.1, .twoChoices choice.2)
  | .dqn d => let choice := d.selectPartition n draws; (choice.1, .dqn choice.2)

def onPublishComplete (bal : CountingBalancer F) (partition : Nat) : CountingBalancer F :=
  match bal with
  | .twoChoices p => .twoChoices (p.onPublishComplete partition)
  | .dqn d => .dqn (d.onPublishComplete partition)

def onMetrics (bal : CountingBalancer F) (m : Metrics F) : CountingBalancer F :=
  match bal with
  | .twoChoices p => .twoChoices (p.onMetrics m)
  | .dqn d => .dqn (d.onMetrics m)

/-- Only a DQN has a policy loop. -/
def policyTick (bal : CountingBalancer F) (qValues : List F) : CountingBalancer F :=
  match bal with
  | .twoChoices p => .twoChoices p
  | .dqn d => .dqn (d.policyTick qValues)

variable (bal : CountingBalancer F)

theorem selectPartition_counted {n : Nat} (positive : 1 ≤ n) (fits : n < 2 ^ 63) (draws : Draws F) :
    CountedChoice n bal.inflight (bal.selectPartition n draws).1
      (bal.selectPartition n draws).2.inflight := by
  cases bal with
  | twoChoices p => exact p.selectPartition_counted positive draws
  | dqn d => exact d.selectPartition_counted positive fits draws

omit [FloatArith F] in
theorem inflight_onPublishComplete (partition : Nat) :
    (bal.onPublishComplete partition).inflight = publishComplete bal.inflight partition := by
  cases bal with
  | twoChoices p => rfl
  | dqn d => rfl

theorem inflight_onMetrics (m : Metrics F) :
    (bal.onMetrics m).inflight = bal.inflight := by
  cases bal with
  | twoChoices p =>
    unfold onMetrics PowerOfTwoChoices.onMetrics
    dsimp only
    split_ifs <;> rfl
  | dqn d =>
    unfold onMetrics DQNBalancer.onMetrics
    dsimp only
    split_ifs <;> rfl

theorem inflight_policyTick (qValues : List F) :
    (bal.policyTick qValues).inflight = bal.inflight := by
  cases bal with
  | twoChoices p => rfl
  | dqn d => rfl

end CountingBalancer

/-- A balancer and what its callers have done so far; each caller is one publish. -/
structure InflightRun (F : Type) where
  balancer : CountingBalancer F
  history : List (Nat × TrackerCall)

inductive InflightEvent (F : Type) where
  | select (caller : Nat) (draws : Draws F)
  | complete (caller : Nat) (partition : Nat)
  | metrics (m : Metrics F)
  | tick (qValues : List F)

namespace InflightRun

/-- One step, with `n` partitions a topic. -/
def step (n : Nat) (s : InflightRun F) : InflightEvent F → InflightRun F
  | .select caller draws =>
      let choice := s.balancer.selectPartition n draws
      { balancer := choice.2
        history := s.history ++ (choice.1.map fun idx => (caller, .acquire (idx : Int))).toList }
  | .complete caller partition =>
      { balancer := s.balancer.onPublishComplete partition
        history := s.history ++ [(caller, .release (partition : Int))] }
  | .metrics m => { s with balancer := s.balancer.onMetrics m }
  | .tick qValues => { s with balancer := s.balancer.policyTick qValues }

/-- The caller has done nothing, or all that a call does that is not refused. -/
def Finished (n : Nat) (s : InflightRun F) (caller : Nat) : Prop :=
  Use.callsOf caller s.history = [] ∨ ∃ call : PublishCall, call.Has n ∧
    call.IsTrace (Use.callsOf caller s.history) ∧ call.Unrefused

/-- No caller has given back what it did not have. -/
def WellFormed (history : List (Nat × TrackerCall)) : Prop :=
  ∀ caller, Use.Ordered (Use.callsOf caller history)

def uses (s : InflightRun F) : List TrackerCall := s.history.map Prod.snd

/-- The counters of `n` partitions hold what has been acquired and not released. -/
def Holds (n : Nat) (counters : List Int64) (uses : List TrackerCall) : Prop :=
  counters.length = n ∧ ∀ idx < n,
    counters[idx]? = some (Int64.ofInt (Use.acquired (idx : Int) uses - Use.released (idx : Int) uses))

structure Counted (n : Nat) (s : InflightRun F) : Prop where
  range : PublishCall.InRange n s.uses
  unused : s.balancer.inflight = none → ∀ partIdx, Use.acquired partIdx s.uses = 0
  counters : ∀ counters, s.balancer.inflight = some counters → Holds n counters s.uses

/-! ## The counters -/

section Counters

variable {n : Nat} {counters counters' : List Int64} {uses : List TrackerCall}

theorem Holds.add (holds : Holds n counters uses) {idx : Nat} {delta : Int} {use : TrackerCall}
    (moved : ∀ other : Nat, (Use.acquired (other : Int) [use] : Int) - Use.released (other : Int) [use] =
      if other = idx then delta else 0)
    (added : addInflight counters idx (Int64.ofInt delta) = some counters') :
    Holds n counters' (uses ++ [use]) := by
  unfold addInflight at added
  cases here : counters[idx]? with
  | none =>
    rw [here] at added
    cases added
  | some count =>
    rw [here] at added
    obtain rfl := Option.some.inj added
    refine ⟨(List.length_set ..).trans holds.1, fun other small => ?_⟩
    have before := holds.2 other small
    have change := moved other
    rw [Use.acquired_append, Use.released_append]
    by_cases same : other = idx
    · subst same
      rw [if_pos rfl] at change
      rw [List.getElem?_set_self (by rw [holds.1]; exact small)]
      rw [here] at before
      rw [Option.some.inj before, ← Int64.ofInt_add]
      congr 2
      push_cast
      omega
    · rw [if_neg same] at change
      rw [List.getElem?_set_ne (Ne.symm same), before]
      congr 2
      push_cast
      omega

theorem moved_acquire (idx other : Nat) :
    (Use.acquired (other : Int) [.acquire (idx : Int)] : Int) -
      Use.released (other : Int) [.acquire (idx : Int)] = if other = idx then 1 else 0 := by
  by_cases same : other = idx
  · simp [Use.acquired, Use.released, same]
  · have different : (idx : Int) ≠ other := by omega
    simp [Use.acquired, Use.released, same, different]

theorem moved_release (idx other : Nat) :
    (Use.acquired (other : Int) [.release (idx : Int)] : Int) -
      Use.released (other : Int) [.release (idx : Int)] = if other = idx then -1 else 0 := by
  by_cases same : other = idx
  · simp [Use.acquired, Use.released, same]
  · have different : (idx : Int) ≠ other := by omega
    simp [Use.acquired, Use.released, same, different]

end Counters

/-! ## One step -/

variable {n : Nat} {s : InflightRun F}

omit [FloatArith F] in
theorem WellFormed.of_append {history more : List (Nat × TrackerCall)}
    (wellFormed : WellFormed (history ++ more)) : WellFormed history := by
  intro caller
  have ordered := wellFormed caller
  rw [Use.callsOf_append] at ordered
  exact ordered.of_append

theorem WellFormed.of_step {event : InflightEvent F}
    (wellFormed : WellFormed (s.step n event).history) : WellFormed s.history := by
  cases event with
  | select caller draws => exact WellFormed.of_append wellFormed
  | complete caller partition => exact WellFormed.of_append wellFormed
  | metrics m => exact wellFormed
  | tick qValues => exact wellFormed

omit [FloatArith F] in
theorem Counted.ensure (counted : s.Counted n) (wellFormed : WellFormed s.history) :
    Holds n (ensureInflight s.balancer.inflight n) s.uses := by
  unfold ensureInflight
  cases held : s.balancer.inflight with
  | some counters =>
    have holds := counted.counters counters held
    dsimp only
    rw [if_pos (Nat.le_of_eq holds.1.symm)]
    exact holds
  | none =>
    -- nothing has been acquired, hence nothing released
    have unused := counted.unused held
    have even : ∀ partIdx, Use.acquired partIdx s.uses = Use.released partIdx s.uses := by
      intro partIdx
      refine Use.even_of_callers partIdx s.history.length s.history le_rfl fun caller => ?_
      have none : Use.acquired partIdx (Use.callsOf caller s.history) = 0 := by
        apply List.count_eq_zero.mpr
        intro member
        exact List.count_eq_zero.mp (unused partIdx) (Use.mem_of_mem_callsOf member)
      have fewer := (wellFormed caller).released_le partIdx
      omega
    refine ⟨List.length_replicate, fun idx small => ?_⟩
    dsimp only
    rw [List.getElem?_replicate, if_pos small, even]
    simp

theorem Counted.select (counted : s.Counted n) (wellFormed : WellFormed s.history)
    (positive : 1 ≤ n) (fits : n < 2 ^ 63) (caller : Nat) (draws : Draws F) :
    (s.step n (.select caller draws)).Counted n := by
  obtain ⟨idx, counters, small, chosen, added, held⟩ :=
    s.balancer.selectPartition_counted positive fits draws
  have uses : (s.step n (.select caller draws)).uses = s.uses ++ [.acquire (idx : Int)] := by
    simp [step, InflightRun.uses, chosen]
  refine ⟨?_, ?_, ?_⟩
  · intro partIdx member
    rw [uses, List.mem_append, List.mem_singleton] at member
    rcases member with old | new
    · exact counted.range partIdx old
    · rw [Use.acquire.inj new]
      omega
  · intro nothing
    rw [show (s.balancer.selectPartition n draws).2.inflight = none from nothing] at held
    cases held
  · intro counters' held'
    rw [show (s.balancer.selectPartition n draws).2.inflight = some counters' from held'] at held
    obtain rfl := Option.some.inj held
    rw [uses]
    exact (counted.ensure wellFormed).add (moved_acquire idx) added

omit [FloatArith F] in
theorem acquired_of_complete {caller partition : Nat} {history : List (Nat × TrackerCall)}
    (wellFormed : WellFormed (history ++ [(caller, .release (partition : Int))])) :
    .acquire (partition : Int) ∈ history.map Prod.snd := by
  have fewer := (wellFormed caller).released_le partition
  rw [Use.callsOf_append] at fewer
  have own : Use.callsOf caller [(caller, (.release (partition : Int) : TrackerCall))] =
      [.release (partition : Int)] := by simp [Use.callsOf]
  rw [own, Use.released_append, Use.acquired_append] at fewer
  have one : Use.released (partition : Int) [.release (partition : Int)] = 1 := by
    simp [Use.released]
  have none : Use.acquired (partition : Int) [.release (partition : Int)] = 0 := by
    simp [Use.acquired]
  have acquired : 0 < Use.acquired (partition : Int) (Use.callsOf caller history) := by omega
  exact Use.mem_of_mem_callsOf (List.count_pos_iff.mp acquired)

theorem Counted.complete (counted : s.Counted n) {caller partition : Nat}
    (wellFormed : WellFormed (s.step n (.complete caller partition)).history) :
    (s.step n (.complete caller partition)).Counted n := by
  have acquired : .acquire (partition : Int) ∈ s.uses := acquired_of_complete wellFormed
  have small : partition < n := by
    have range := counted.range _ acquired
    omega
  have uses : (s.step n (.complete caller partition)).uses =
      s.uses ++ [.release (partition : Int)] := by simp [step, InflightRun.uses]
  have inflight : (s.step n (.complete caller partition)).balancer.inflight =
      publishComplete s.balancer.inflight partition :=
    s.balancer.inflight_onPublishComplete partition
  cases held : s.balancer.inflight with
  | none =>
    have none := counted.unused held partition
    exact absurd acquired (List.count_eq_zero.mp none)
  | some counters =>
    have holds := counted.counters counters held
    have inside : partition < counters.length := by
      rw [holds.1]
      exact small
    obtain ⟨counters', added⟩ := addInflight_some inside (Int64.ofInt (-1))
    rw [held, publishComplete, show (-1 : Int64) = Int64.ofInt (-1) by decide, added] at inflight
    refine ⟨?_, ?_, ?_⟩
    · intro partIdx member
      rw [uses, List.mem_append, List.mem_singleton] at member
      rcases member with old | new
      · exact counted.range partIdx old
      · cases new
    · intro none
      rw [inflight] at none
      cases none
    · intro other held'
      rw [inflight] at held'
      obtain rfl := Option.some.inj held'
      rw [uses]
      exact holds.add (moved_release partition) added

variable {bal : CountingBalancer F}

omit [FloatArith F] in
theorem Counted.withBalancer (counted : s.Counted n) (same : bal.inflight = s.balancer.inflight) :
    Counted n { s with balancer := bal } where
  range := counted.range
  unused none := counted.unused (same.symm.trans none)
  counters counters held := counted.counters counters (same.symm.trans held)

theorem Counted.step (counted : s.Counted n) (positive : 1 ≤ n) (fits : n < 2 ^ 63)
    {event : InflightEvent F} (wellFormed : WellFormed (s.step n event).history) :
    (s.step n event).Counted n := by
  cases event with
  | select caller draws =>
    exact counted.select wellFormed.of_step positive fits caller draws
  | complete caller partition => exact counted.complete wellFormed
  | metrics m => exact counted.withBalancer (s.balancer.inflight_onMetrics m)
  | tick qValues => exact counted.withBalancer (s.balancer.inflight_policyTick qValues)

theorem counted_final (positive : 1 ≤ n) (fits : n < 2 ^ 63) (fresh : bal.inflight = none)
    (events : List (InflightEvent F))
    (wellFormed : WellFormed (Runs.final (step n) ⟨bal, []⟩ events).history) :
    (Runs.final (step n) ⟨bal, []⟩ events).Counted n := by
  induction events using List.reverseRecOn with
  | nil =>
    refine ⟨fun partIdx member => (by cases member), fun _ partIdx => rfl, ?_⟩
    intro counters held
    rw [show bal.inflight = some counters from held] at fresh
    cases fresh
  | append_singleton events event ih =>
    rw [Runs.final_append] at wellFormed ⊢
    exact (ih wellFormed.of_step).step positive fits wellFormed

theorem counters_zero (positive : 1 ≤ n) (fits : n < 2 ^ 63) (fresh : bal.inflight = none)
    (events : List (InflightEvent F))
    (finished : ∀ caller, (Runs.final (step n) ⟨bal, []⟩ events).Finished n caller) :
    ∀ counters, (Runs.final (step n) ⟨bal, []⟩ events).balancer.inflight = some counters →
      ∀ count ∈ counters, count = 0 := by
  have wellFormed : WellFormed (Runs.final (step n) ⟨bal, []⟩ events).history := by
    intro caller
    rcases finished caller with nothing | ⟨call, -, isTrace, -⟩
    · rw [nothing]
      exact Use.ordered_nil
    · exact isTrace.ordered
  have counted := counted_final positive fits fresh events wellFormed
  generalize Runs.final (step n) ⟨bal, []⟩ events = s at finished counted
  have even : ∀ partIdx, Use.acquired partIdx s.uses = Use.released partIdx s.uses := by
    intro partIdx
    refine Use.even_of_callers partIdx s.history.length s.history le_rfl fun caller => ?_
    rcases finished caller with nothing | ⟨call, has, isTrace, unrefused⟩
    · rw [nothing]
      rfl
    · have range : PublishCall.InRange n (Use.callsOf caller s.history) :=
        fun partIdx member => counted.range partIdx (Use.mem_of_mem_callsOf member)
      exact ((PublishCall.balanced_iff has isTrace range).mpr unrefused).even partIdx
  intro counters held count member
  obtain ⟨length, holds⟩ := counted.counters counters held
  obtain ⟨idx, inside, rfl⟩ := List.getElem_of_mem member
  have here := holds idx (by omega)
  rw [List.getElem?_eq_getElem inside, even] at here
  rw [Option.some.inj here]
  simp

/-- For topics of `n` partitions: the calls that a publish makes are balanced
exactly when it is not refused after the choice, and when no publish that runs or
ran is refused, the counters are zero whenever all that have started are finished. -/
theorem inflight_balances (F : Type) [FloatArith F] (n : Nat) (positive : 1 ≤ n)
    (fits : n < 2 ^ 63) :
    (∀ (call : PublishCall) (trace : List TrackerCall), call.Has n → call.IsTrace trace →
      PublishCall.InRange n trace → (Use.Balanced trace ↔ call.Unrefused)) ∧
    (∀ bal : CountingBalancer F, bal.inflight = none → ∀ events : List (InflightEvent F),
      (∀ caller, (Runs.final (step n) ⟨bal, []⟩ events).Finished n caller) →
      ∀ counters, (Runs.final (step n) ⟨bal, []⟩ events).balancer.inflight = some counters →
        ∀ count ∈ counters, count = 0) :=
  ⟨fun _ _ has isTrace range => PublishCall.balanced_iff has isTrace range,
    fun _ fresh events finished => counters_zero positive fits fresh events finished⟩

/-- Two choices with the default weights. -/
def newTwoChoices : CountingBalancer Rat :=
  .twoChoices { loadEWMA := none, depthNorm := none, inflight := none, alpha := 3 / 10,
                loadWeight := 1, depthWeight := 1, inflightWeight := 2 }

def sameDraws : Draws Rat := { first := 0, second := 0, third := 0, uniform := 0 }

def twoPartitions : Broker :=
  let b := Broker.new sampleLibrary defaultConfig none
  (b.createTopic [116] .fifo [Log.empty, Log.empty]).getD b

def samplePublish (partIdx : Int) (throttled : Bool) : PublishCall :=
  .publish twoPartitions.snap twoPartitions [116] (sampleMessage 5 7 118)
    { partIdx := partIdx, throttled := throttled, produceTime := 8, append := steadyEnv 9 }

def overlapping : List (InflightEvent Rat) :=
  [.select 0 sameDraws, .select 1 sameDraws, .complete 0 0, .complete 1 1]

theorem inflight_balances_two :
    (Runs.final (step 2) ⟨newTwoChoices, []⟩ overlapping).balancer.inflight = some [0, 0] ∧
      ∀ count ∈ ([0, 0] : List Int64), count = 0 := by
  have history : (Runs.final (step 2) ⟨newTwoChoices, []⟩ overlapping).history =
      [(0, .acquire 0), (1, .acquire 1), (0, .release 0), (1, .release 1)] := by decide +kernel
  have counters : (Runs.final (step 2) ⟨newTwoChoices, []⟩ overlapping).balancer.inflight =
      some [0, 0] := by decide +kernel
  have partitions : (twoPartitions.topics [116]).map (fun t => t.partitions.length) = some 2 := by
    decide +kernel
  have has : ∀ partIdx, (samplePublish partIdx false).Has 2 := by
    intro partIdx t there
    rw [there] at partitions
    exact Option.some.inj partitions
  refine ⟨counters, (inflight_balances Rat 2 (by decide) (by decide)).2 newTwoChoices rfl
    overlapping ?_ _ counters⟩
  intro caller
  unfold Finished
  rw [history]
  match caller with
  | 0 =>
      exact .inr ⟨samplePublish 0 false, has 0,
        (by decide +kernel : _ = Broker.publishCalls _ _ _ _ _), fun _ _ _ => rfl⟩
  | 1 =>
      exact .inr ⟨samplePublish 1 false, has 1,
        (by decide +kernel : _ = Broker.publishCalls _ _ _ _ _), fun _ _ _ => rfl⟩
  | caller + 2 => exact .inl (by simp [Use.callsOf])

/-- Backpressure refuses the publish after the choice: it returns, and the counter
of its partition stays at one. -/
theorem throttled_publish_stays_counted :
    let env : PublishEnv :=
      { partIdx := 0, throttled := true, produceTime := 8, append := steadyEnv 9 }
    let calls := Broker.publishCalls twoPartitions.snap twoPartitions [116] (sampleMessage 5 7 118) env
    let run := Runs.final (step 2) ⟨newTwoChoices, []⟩ [.select 0 sameDraws]
    (Broker.publishWith twoPartitions.snap twoPartitions [116] (sampleMessage 5 7 118) env).1 =
      .error .throttled ∧
    calls = [.acquire 0] ∧ Use.callsOf 0 run.history = calls ∧
    run.balancer.inflight = some [1, 0] ∧ ¬ Use.Balanced calls := by
  intro env calls run
  have outcome : (Broker.publishWith twoPartitions.snap twoPartitions [116]
      (sampleMessage 5 7 118) env).1 = .error .throttled ∧
      calls = [.acquire 0] ∧ Use.callsOf 0 run.history = calls ∧
      run.balancer.inflight = some [1, 0] := by decide +kernel
  obtain ⟨refused, made, history, counters⟩ := outcome
  refine ⟨refused, made, history, counters, ?_⟩
  intro balanced
  have even := balanced.even 0
  rw [made] at even
  exact absurd even (by decide)

end InflightRun

end NyaQueue
