import NyaQueue.FifoContract

/-!
# Whether FIFO consumers get on

Appends, retention calls, client commits and consumption on one FIFO topic, in
any order.  A group reads at the offset stored for it, a signed integer that
any client may set; the scheduler compares it with the high water mark only.
The question is whether a `Consume` at that offset returns a message or can
truthfully say that there is none.
-/

set_option autoImplicit false

namespace NyaQueue

namespace Broker

/-- The offset stored for a group, one if there is none. -/
def position (b : Broker) (group topicName : Bytes) (partIdx : Int) : Int64 :=
  match b.offsetStore with
  | none => 0
  | some store =>
      match store.load group topicName partIdx with
      | .error _ => 1
      | .ok off => off

def consume (b : Broker) (topicName group : Bytes) (partIdx : Int) (threshold : Int) :
    Except ConsumeError (Message × Nat) × Broker :=
  b.consumeFrom topicName partIdx (b.startOffset group topicName partIdx) threshold

/-- A call on one partition of a topic. -/
def onPartition (b : Broker) (name : Bytes) (id : Int) (call : PartitionCall) : Broker :=
  match b.topics name with
  | none => b
  | some t =>
      match t.partition id with
      | .error _ => b
      | .ok p => b.setTopic name (t.setPartition id (p.step call))

end Broker

inductive GroupEvent where
  | work (id : Int) (call : PartitionCall)
  | commit (group : Bytes) (id : Int) (offset : Int64) (now : Time) (written : Bool)
  | consume (group : Bytes) (id : Int) (maxMessages : Int) (env : ConsumeEnv)

namespace FifoProgress

def step (name : Bytes) (b : Broker) : GroupEvent → Broker
  | .work id call => b.onPartition name id call
  | .commit group id offset now written => (b.commit group name id offset now written).2
  | .consume group id maxMessages env => (b.consumeBatch name group id maxMessages env).2

/-- A `Consume` returns a message, or says that there is none when every stored
record lies before the position of the group. -/
def Progresses (b : Broker) (name group : Bytes) (id : Int) (p : Partition) : Prop :=
  ∀ threshold, (∃ m next, (b.consume name group id threshold).1 = .ok (m, next)) ∨
    (b.consume name group id threshold).1 = .error (.next .noMessages) ∧
      ∀ offset data, p.log.recordAt offset = some data →
        (offset : Int) < (b.position group name id).toInt

/-- No group of `groups` is stuck on any partition. -/
def NoneStuck (name : Bytes) (groups : Set Bytes) (b : Broker) : Prop :=
  ∀ t id p, b.topics name = some t → t.partition id = .ok p →
    ∀ group ∈ groups, Progresses b name group id p

/-- Every record can be read and decompressed. -/
def Decodable (name : Bytes) (b : Broker) : Prop :=
  ∀ t id p, b.topics name = some t → t.partition id = .ok p →
    ∀ offset data, p.log.recordAt offset = some data →
      ∃ raw m, p.read offset = .ok raw ∧ b.decompressMessage raw = .ok m

/-- What is taken for granted: writes go through, offsets are far from the end
of the signed range, and what is stored can be decoded. -/
def Healthy (name : Bytes) (b : Broker) (event : GroupEvent) : Prop :=
  Decodable name (step name b event) ∧
  match event with
  | .work id (.append call) => call.env.disk = true ∧
      ∀ t p, b.topics name = some t → t.partition id = .ok p →
        p.log.nextIndex + call.msgs.length < 2 ^ 63
  | _ => True

/-- A position from which a group can go on. -/
def Fine (p : Partition) (position : Int64) : Prop :=
  p.log.firstIndex ≤ position.toInt ∨ p.log.entries = [] ∧ position.toInt < 0

/-- What the groups need: no commit before the first record, no cut behind the
position of a group, and no negative position when something is stored. -/
def Safe (name : Bytes) (groups : Set Bytes) (b : Broker) : GroupEvent → Prop
  | .work id (.append call) => ∀ t p, b.topics name = some t → t.partition id = .ok p →
      ∀ group ∈ groups, call.msgs ≠ [] → (∃ batch, call.batch p = .ok batch) →
        0 ≤ (b.position group name id).toInt
  | .work id (.retain call) => ∀ t p, b.topics name = some t → t.partition id = .ok p →
      ∀ group ∈ groups, p.log.firstIndex < call.cut p → call.cut p < p.log.nextIndex →
        call.cut p ≤ (b.position group name id).toInt
  | .commit group id offset _ _ => ∀ t p, b.topics name = some t → t.partition id = .ok p →
      group ∈ groups → Fine p offset
  | .consume .. => True

/-- A FIFO topic without records, on a store without offsets for it. -/
structure Fresh (name : Bytes) (b : Broker) : Prop where
  topic : ∃ t, b.topics name = some t ∧ ∀ id p, t.partition id = .ok p →
    p.log = Log.empty ∧ p.nextOffset = 1
  scheduler : b.schedulers name = some .fifo
  store : ∃ s, b.offsetStore = some s ∧
    ∀ group id, ∃ cause, s.load group name id = .error cause

/-! ## One state -/

theorem startOffset_position (b : Broker) (group name : Bytes) (id : Int) :
    b.startOffset group name id = offsetOfInt64 (b.position group name id) := by
  unfold Broker.startOffset Broker.position
  cases b.offsetStore with
  | none => rfl
  | some store =>
    dsimp only
    cases store.load group name id <;> rfl

/-- No offset has been handed out in vain, and all offsets are small. -/
structure Level (p : Partition) : Prop where
  nextOffset : p.nextOffset = p.log.nextIndex
  small : p.log.nextIndex < 2 ^ 63

theorem Level.highWaterMark {p : Partition} (level : Level p) :
    p.highWaterMark + 1 = p.log.nextIndex := by
  have positive := p.log.firstIndex_pos
  have next : p.log.nextIndex = p.log.firstIndex + p.log.entries.length := rfl
  unfold Partition.highWaterMark
  rw [level.nextOffset]
  split <;> omega

theorem Level.ahead {p : Partition} (level : Level p) : p.Ahead :=
  Nat.le_of_eq level.nextOffset.symm

section State

variable {b : Broker} {name group : Bytes} {t : Topic} {id : Int} {p : Partition}

theorem consume_behind (fifo : b.schedulers name = some .fifo) (there : b.topics name = some t)
    (found : t.partition id = .ok p)
    (behind : p.highWaterMark < offsetOfInt64 (b.position group name id)) (threshold : Int) :
    (b.consume name group id threshold).1 = .error (.next .noMessages) := by
  rw [Broker.consume, Broker.consumeFrom_fifo fifo there found, startOffset_position,
    Partition.fifoNext, if_pos behind]

theorem consume_stored (fifo : b.schedulers name = some .fifo) (there : b.topics name = some t)
    (found : t.partition id = .ok p) (decodable : Decodable name b)
    (before : ¬ p.highWaterMark < offsetOfInt64 (b.position group name id)) {data : Bytes}
    (stored : p.log.recordAt (offsetOfInt64 (b.position group name id)) = some data)
    (threshold : Int) : ∃ m next, (b.consume name group id threshold).1 = .ok (m, next) := by
  obtain ⟨raw, m, read, decoded⟩ := decodable t id p there found _ data stored
  rw [Broker.consume, Broker.consumeFrom_fifo fifo there found, startOffset_position,
    Partition.fifoNext, if_neg before, read]
  dsimp only
  rw [decoded]
  exact ⟨_, _, rfl⟩

theorem consume_missing (fifo : b.schedulers name = some .fifo) (there : b.topics name = some t)
    (found : t.partition id = .ok p)
    (before : ¬ p.highWaterMark < offsetOfInt64 (b.position group name id))
    (missing : p.log.recordAt (offsetOfInt64 (b.position group name id)) = none)
    (threshold : Int) : (b.consume name group id threshold).1 =
      .error (.next (.read (.walRead (offsetOfInt64 (b.position group name id)) .notFound))) := by
  have failed : p.read (offsetOfInt64 (b.position group name id)) =
      .error (.walRead (offsetOfInt64 (b.position group name id)) .notFound) := by
    rw [Partition.read, Log.read_eq_recordAt, missing]
  rw [Broker.consume, Broker.consumeFrom_fifo fifo there found, startOffset_position,
    Partition.fifoNext, if_neg before, failed]

theorem progresses_iff_fine (fifo : b.schedulers name = some .fifo)
    (there : b.topics name = some t) (found : t.partition id = .ok p) (level : Level p)
    (decodable : Decodable name b) :
    Progresses b name group id p ↔ Fine p (b.position group name id) := by
  have mark := level.highWaterMark
  have small := level.small
  have positive := p.log.firstIndex_pos
  have next : p.log.nextIndex = p.log.firstIndex + p.log.entries.length := rfl
  by_cases negative : (b.position group name id).toInt < 0
  · -- a negative offset wraps around to one behind every record
    have large : 2 ^ 63 ≤ offsetOfInt64 (b.position group name id) :=
      offsetOfInt64_of_neg negative
    have behind : p.highWaterMark < offsetOfInt64 (b.position group name id) := by omega
    have nothing := consume_behind fifo there found behind
    constructor
    · intro progresses
      refine .inr ⟨?_, negative⟩
      rcases progresses 0 with ⟨m, next, returned⟩ | ⟨-, before⟩
      · rw [nothing] at returned
        cases returned
      · by_contra some
        have length := List.length_pos_of_ne_nil some
        obtain ⟨data, stored⟩ := (p.log.recordAt_isSome_iff p.log.firstIndex).mpr
          ⟨Nat.le_refl _, by omega⟩
        have := before _ data stored
        omega
    · rintro (ordered | ⟨empty, -⟩) threshold
      · omega
      · refine .inr ⟨nothing threshold, ?_⟩
        intro offset data stored
        have inside := Log.recordAt_bounds stored
        rw [empty, List.length_nil] at next
        omega
  · have unsigned := offsetOfInt64_of_nonneg (Int.not_lt.mp negative)
    by_cases behind : p.highWaterMark < offsetOfInt64 (b.position group name id)
    · constructor
      · intro _
        left
        omega
      · intro _ threshold
        refine .inr ⟨consume_behind fifo there found behind threshold, ?_⟩
        intro offset data stored
        have inside := Log.recordAt_bounds stored
        omega
    · by_cases kept : p.log.firstIndex ≤ offsetOfInt64 (b.position group name id)
      · obtain ⟨data, stored⟩ := (p.log.recordAt_isSome_iff _).mpr ⟨kept, by omega⟩
        constructor
        · intro _
          left
          omega
        · intro _ threshold
          exact .inl (consume_stored fifo there found decodable behind stored threshold)
      · have missing : p.log.recordAt (offsetOfInt64 (b.position group name id)) = none := by
          rw [Log.recordAt, if_neg kept]
        have failed := consume_missing fifo there found behind missing 0
        constructor
        · intro progresses
          rcases progresses 0 with ⟨m, next, returned⟩ | ⟨returned, -⟩
          · rw [failed] at returned
            cases returned
          · rw [failed] at returned
            cases returned
        · rintro (ordered | ⟨-, impossible⟩)
          · omega
          · exact absurd impossible negative

end State

/-! ## One call on a partition -/

theorem level_opened {p : Partition} (empty : p.log = Log.empty) (next : p.nextOffset = 1) :
    Level p := by
  refine ⟨?_, ?_⟩
  · rw [next, empty]
    rfl
  · rw [empty]
    decide

theorem append_healthy {p : Partition} (level : Level p) {call : AppendCall}
    (disk : call.env.disk = true) (room : p.log.nextIndex + call.msgs.length < 2 ^ 63) :
    ((call.run p).2 = p ∧ (call.msgs = [] ∨ ∀ batch, call.batch p ≠ .ok batch)) ∨
    (call.msgs ≠ [] ∧ (∃ batch, call.batch p = .ok batch) ∧ Level (call.run p).2 ∧
      (call.run p).2.log.firstIndex = p.log.firstIndex ∧ (call.run p).2.log.entries ≠ []) := by
  by_cases empty : call.msgs = []
  · rw [call.run_empty p empty]
    exact .inl ⟨rfl, .inl empty⟩
  · rcases call.run_cases p empty with
      ⟨error, unencoded, result⟩ | ⟨batch, encoded, length, indices, outcome⟩
    · rw [result]
      refine .inl ⟨rfl, .inr ?_⟩
      intro batch encoded
      rw [unencoded] at encoded
      cases encoded
    · have ordered : Log.InOrder p.log.nextIndex batch := by
        rw [Log.inOrder_iff, indices, level.nextOffset, length]
      obtain ⟨log, written⟩ := Log.writeBatch_healthy ordered (by omega)
      rcases outcome with ⟨cause, error, failed, -⟩ | ⟨log', written', result⟩
      · rw [disk, written] at failed
        cases failed
      · have grown := Log.nextIndex_writeBatch written'
        obtain ⟨-, -, first, entries⟩ := Log.writeBatch_ok written'
        rw [result]
        refine .inr ⟨empty, ⟨batch, encoded⟩, ⟨?_, ?_⟩, first, ?_⟩
        · have handed := level.nextOffset
          simp only [Partition.stored, Partition.advance]
          omega
        · simp only [Partition.stored]
          omega
        · simp only [Partition.stored]
          rw [entries]
          intro none
          have nothing := congrArg List.length (List.append_eq_nil_iff.mp none).2
          rw [List.length_map, length, List.length_nil] at nothing
          exact empty (List.length_eq_zero_iff.mp nothing)

theorem retain_cases {p : Partition} (level : Level p) (call : RetentionCall) :
    Level (call.run p).2 ∧ (call.run p).2.log.nextIndex = p.log.nextIndex ∧
      ((call.run p).2.log.firstIndex = p.log.firstIndex ∨
        p.log.firstIndex < call.cut p ∧ call.cut p < p.log.nextIndex ∧
          (call.run p).2.log.firstIndex = call.cut p) := by
  rcases p.retention_outcome call with ⟨cause, failed⟩ | ⟨value, q, success⟩
  · rw [failed]
    exact ⟨level, rfl, .inl rfl⟩
  · have cutAt := Partition.retention_cutAt level.ahead success
    rw [success]
    refine ⟨⟨?_, ?_⟩, cutAt.nextIndex, ?_⟩
    · exact (cutAt.nextOffset.trans level.nextOffset).trans cutAt.nextIndex.symm
    · exact Nat.lt_of_le_of_lt (Nat.le_of_eq cutAt.nextIndex) level.small
    · have first := cutAt.firstIndex
      have next := cutAt.nextIndex
      by_cases early : call.cut p ≤ p.log.firstIndex
      · left
        rw [first, Nat.max_eq_left early]
      · right
        rw [Nat.max_eq_right (by omega)] at first
        refine ⟨by omega, ?_, first⟩
        by_contra outside
        have positive := p.log.firstIndex_pos
        have length : q.log.nextIndex = q.log.firstIndex + q.log.entries.length := rfl
        have none : q.log.entries = [] := List.length_eq_zero_iff.mp (by omega)
        have start := q.log.empty_first none
        omega

/-! ## One step -/

structure Base (name : Bytes) (b : Broker) : Prop where
  scheduler : b.schedulers name = some .fifo
  store : ∃ store, b.offsetStore = some store
  topic : ∃ t, b.topics name = some t ∧ ∀ id p, t.partition id = .ok p → Level p
  decodable : Decodable name b

/-- Every group of `groups` is where it can go on. -/
def AllFine (name : Bytes) (groups : Set Bytes) (b : Broker) : Prop :=
  ∀ t id p, b.topics name = some t → t.partition id = .ok p →
    ∀ group ∈ groups, Fine p (b.position group name id)

theorem noneStuck_iff {name : Bytes} {b : Broker} (base : Base name b) (groups : Set Bytes) :
    NoneStuck name groups b ↔ AllFine name groups b := by
  obtain ⟨t, there, level⟩ := base.topic
  constructor
  · intro stuck t' id p there' found group member
    have same : t = t' := Option.some.inj (there.symm.trans there')
    subst same
    exact (progresses_iff_fine base.scheduler there found (level id p found) base.decodable).mp
      (stuck t id p there found group member)
  · intro fine t' id p there' found group member
    have same : t = t' := Option.some.inj (there.symm.trans there')
    subst same
    exact (progresses_iff_fine base.scheduler there found (level id p found) base.decodable).mpr
      (fine t id p there found group member)

section Steps

variable {name : Bytes} {groups : Set Bytes} {b : Broker}

variable {t : Topic} {id : Int} {p : Partition} {position : Int64} {store : OffsetStore}
  {group : Bytes}

theorem onPartition_eq (there : b.topics name = some t) (found : t.partition id = .ok p)
    (call : PartitionCall) :
    b.onPartition name id call = b.setTopic name (t.setPartition id (p.step call)) := by
  unfold Broker.onPartition
  simp only [there, found]

theorem onPartition_missing (there : b.topics name = some t) {bounds : Int × Nat}
    (missing : t.partition id = .error bounds) (call : PartitionCall) :
    b.onPartition name id call = b := by
  unfold Broker.onPartition
  simp only [there, missing]

theorem base_setPartition (base : Base name b) (there : b.topics name = some t) {q : Partition}
    (found : t.partition id = .ok p) (level : Level q)
    (decodable : Decodable name (b.setTopic name (t.setPartition id q))) :
    Base name (b.setTopic name (t.setPartition id q)) := by
  obtain ⟨t', there', levels⟩ := base.topic
  have same : t' = t := Option.some.inj (there'.symm.trans there)
  subst same
  refine ⟨base.scheduler, base.store, ⟨_, Broker.setTopic_topics_self .., ?_⟩, decodable⟩
  intro id' p' found'
  by_cases here : id' = id
  · subst here
    rw [Topic.partition_setPartition_self found] at found'
    cases found'
    exact level
  · have valid := ((t'.partition_ok_iff id p).mp found).1
    rw [Topic.partition_setPartition_ne valid here] at found'
    exact levels id' p' found'

theorem allFine_setPartition_iff (there : b.topics name = some t) {q : Partition}
    (found : t.partition id = .ok p) (fine : AllFine name groups b) :
    AllFine name groups (b.setTopic name (t.setPartition id q)) ↔
      ∀ group ∈ groups, Fine q (b.position group name id) := by
  have valid := ((t.partition_ok_iff id p).mp found).1
  constructor
  · intro after group member
    exact after _ id q (Broker.setTopic_topics_self ..)
      (Topic.partition_setPartition_self found q) group member
  · intro here t' id' p' there' found' group member
    rw [Broker.setTopic_topics_self] at there'
    cases there'
    by_cases same : id' = id
    · subst same
      rw [Topic.partition_setPartition_self found] at found'
      cases found'
      exact here group member
    · rw [Topic.partition_setPartition_ne valid same] at found'
      exact fine t id' p' there found' group member

theorem fine_append_iff (level : Level p) {call : AppendCall} (disk : call.env.disk = true)
    (room : p.log.nextIndex + call.msgs.length < 2 ^ 63) (fine : Fine p position) :
    Fine (call.run p).2 position ↔
      (call.msgs ≠ [] → (∃ batch, call.batch p = .ok batch) → 0 ≤ position.toInt) := by
  have positive := p.log.firstIndex_pos
  rcases append_healthy level disk room with
    ⟨same, idle⟩ | ⟨nonempty, encoded, -, first, stored⟩
  · rw [same]
    refine ⟨fun _ nonempty encoded => ?_, fun _ => fine⟩
    rcases idle with empty | unencoded
    · exact absurd empty nonempty
    · obtain ⟨batch, success⟩ := encoded
      exact absurd success (unencoded batch)
  · constructor
    · rintro (ordered | ⟨empty, -⟩) _ _
      · omega
      · exact absurd empty stored
    · intro nonneg
      have := nonneg nonempty encoded
      rcases fine with ordered | ⟨-, negative⟩
      · exact .inl (by rw [first]; exact ordered)
      · omega

theorem fine_retain_iff (level : Level p) (call : RetentionCall) (fine : Fine p position) :
    Fine (call.run p).2 position ↔
      (p.log.firstIndex < call.cut p → call.cut p < p.log.nextIndex →
        call.cut p ≤ position.toInt) := by
  have positive := p.log.firstIndex_pos
  have length : p.log.nextIndex = p.log.firstIndex + p.log.entries.length := rfl
  have length' : (call.run p).2.log.nextIndex =
    (call.run p).2.log.firstIndex + (call.run p).2.log.entries.length := rfl
  obtain ⟨-, next, cases⟩ := retain_cases level call
  constructor
  · intro after late inside
    obtain ⟨q, success⟩ := Partition.retention_succeeds level.ahead (Nat.le_of_lt late) inside
    have cutAt := (Partition.retention_cutAt level.ahead success).firstIndex
    rw [success] at after next length'
    rw [Nat.max_eq_right (Nat.le_of_lt late)] at cutAt
    rcases after with ordered | ⟨empty, -⟩
    · dsimp only at ordered
      omega
    · dsimp only at empty next length'
      rw [empty, List.length_nil] at length'
      omega
  · intro kept
    rcases cases with same | ⟨late, inside, first⟩
    · rcases fine with ordered | ⟨empty, negative⟩
      · left
        omega
      · right
        rw [empty, List.length_nil] at length
        exact ⟨List.length_eq_zero_iff.mp (by omega), negative⟩
    · left
      have := kept late inside
      omega

theorem step_work (needs : Partition → Int64 → Prop) (base : Base name b)
    (fine : AllFine name groups b) {call : PartitionCall}
    (decodable : Decodable name (b.onPartition name id call))
    (level : ∀ t p, b.topics name = some t → t.partition id = .ok p → Level p →
      Level (p.step call))
    (each : ∀ t p, b.topics name = some t → t.partition id = .ok p → Level p →
      ∀ position, Fine p position → (Fine (p.step call) position ↔ needs p position)) :
    Base name (b.onPartition name id call) ∧
      (AllFine name groups (b.onPartition name id call) ↔
        ∀ t p, b.topics name = some t → t.partition id = .ok p →
          ∀ group ∈ groups, needs p (b.position group name id)) := by
  obtain ⟨t, there, levels⟩ := base.topic
  cases found : t.partition id with
  | error bounds =>
    rw [onPartition_missing there found]
    refine ⟨base, fun _ t' p there' found' => ?_, fun _ => fine⟩
    rw [there] at there'
    cases there'
    rw [found] at found'
    cases found'
  | ok p =>
    rw [onPartition_eq there found] at decodable ⊢
    have level' := level t p there found (levels id p found)
    have each' := each t p there found (levels id p found)
    refine ⟨base_setPartition base there found level' decodable, ?_⟩
    rw [allFine_setPartition_iff there found fine]
    constructor
    · intro after t' p' there' found' group member
      rw [there] at there'
      cases there'
      rw [found] at found'
      cases found'
      exact (each' _ (fine t id p there found group member)).mp (after group member)
    · intro safe group member
      exact (each' _ (fine t id p there found group member)).mpr
        (safe t p there found group member)

theorem step_append (base : Base name b) (fine : AllFine name groups b) {call : AppendCall}
    (healthy : Healthy name b (.work id (.append call))) :
    Base name (step name b (.work id (.append call))) ∧
      (AllFine name groups (step name b (.work id (.append call))) ↔
        Safe name groups b (.work id (.append call))) := by
  obtain ⟨decodable, disk, room⟩ := healthy
  refine step_work (fun p position => call.msgs ≠ [] → (∃ batch, call.batch p = .ok batch) →
    0 ≤ position.toInt) base fine decodable ?_ ?_
  · intro t p there found level
    change Level (call.run p).2
    rcases append_healthy level disk (room t p there found) with ⟨same, -⟩ | ⟨-, -, after, -⟩
    · rw [same]
      exact level
    · exact after
  · intro t p there found level position fine
    exact fine_append_iff level disk (room t p there found) fine

theorem step_retain (base : Base name b) (fine : AllFine name groups b) {call : RetentionCall}
    (healthy : Healthy name b (.work id (.retain call))) :
    Base name (step name b (.work id (.retain call))) ∧
      (AllFine name groups (step name b (.work id (.retain call))) ↔
        Safe name groups b (.work id (.retain call))) := by
  refine step_work (fun p position => p.log.firstIndex < call.cut p →
    call.cut p < p.log.nextIndex → call.cut p ≤ position.toInt) base fine healthy.1 ?_ ?_
  · intro t p _ _ level
    exact (retain_cases level call).1
  · intro t p _ _ level position fine
    exact fine_retain_iff level call fine

theorem position_commit_self (b : Broker) (group : Bytes) (id : Int) (offset : Int64) (now : Time)
    (written : Bool) :
    ({ b with offsetStore := some (store.commit group name id offset now written).2 } :
      Broker).position group name id = offset := by
  simp only [Broker.position, OffsetStore.load_commit_self]

theorem position_commit_other (stored : b.offsetStore = some store) {group' : Bytes} {id' : Int}
    (different : ¬ (id' = id ∧ group' = group)) (offset : Int64) (now : Time) (written : Bool) :
    ({ b with offsetStore := some (store.commit group name id offset now written).2 } :
      Broker).position group' name id' = b.position group' name id' := by
  simp only [Broker.position, stored, OffsetStore.load_commit_other store different]

theorem allFine_commit_iff (stored : b.offsetStore = some store) (fine : AllFine name groups b)
    (group : Bytes) (id : Int) (offset : Int64) (now : Time) (written : Bool) :
    AllFine name groups
        { b with offsetStore := some (store.commit group name id offset now written).2 } ↔
      ∀ t p, b.topics name = some t → t.partition id = .ok p → group ∈ groups → Fine p offset := by
  constructor
  · intro after t p there found member
    have here := after t id p there found group member
    rw [position_commit_self] at here
    exact here
  · intro committed t id' p there found group' member
    by_cases same : id' = id ∧ group' = group
    · obtain ⟨rfl, rfl⟩ := same
      rw [position_commit_self]
      exact committed t p there found member
    · rw [position_commit_other stored same]
      exact fine t id' p there found group' member

theorem step_commit (base : Base name b) (fine : AllFine name groups b) {offset : Int64}
    {now : Time} {written : Bool} :
    Base name (step name b (.commit group id offset now written)) ∧
      (AllFine name groups (step name b (.commit group id offset now written)) ↔
        Safe name groups b (.commit group id offset now written)) := by
  obtain ⟨store, stored⟩ := base.store
  have after : step name b (.commit group id offset now written) =
      { b with offsetStore := some (store.commit group name id offset now written).2 } := by
    simp only [step, Broker.commit, stored]
  rw [after]
  exact ⟨⟨base.scheduler, ⟨_, rfl⟩, base.topic, base.decodable⟩,
    allFine_commit_iff stored fine group id offset now written⟩

theorem fine_popped {p' : Partition} (popped : p.Popped p') :
    Fine p' position ↔ Fine p position := by
  obtain ⟨pi, rfl⟩ := popped
  rfl

theorem level_popped {p' : Partition} (popped : p.Popped p') (level : Level p) : Level p' := by
  obtain ⟨pi, rfl⟩ := popped
  exact ⟨level.nextOffset, level.small⟩

theorem allFine_popped {t' : Topic} (there : b.topics name = some t)
    (popped : t.Related Partition.Popped t') (fine : AllFine name groups b) :
    AllFine name groups (b.setTopic name t') := by
  intro t'' id p' there' found' group member
  rw [Broker.setTopic_topics_self] at there'
  cases there'
  obtain ⟨p, found, pop⟩ := popped.backward id p' found'
  exact (fine_popped pop).mpr (fine t id p there found group member)

theorem fine_consumed (level : Level p) (fine : Fine p position) {n last : Nat}
    (ending : last = offsetOfInt64 position + n) (inside : last ≤ p.log.nextIndex) :
    Fine p (int64OfOffset last) := by
  have small := level.small
  left
  rw [int64OfOffset_toInt (by omega)]
  have positive := p.log.firstIndex_pos
  rcases fine with ordered | ⟨-, negative⟩
  · have unsigned := offsetOfInt64_of_nonneg (a := position) (by omega)
    omega
  · have large := offsetOfInt64_of_neg negative
    omega

theorem step_consume (base : Base name b) (fine : AllFine name groups b) {maxMessages : Int}
    {env : ConsumeEnv}
    (decodable : Decodable name (step name b (.consume group id maxMessages env))) :
    Base name (step name b (.consume group id maxMessages env)) ∧
      AllFine name groups (step name b (.consume group id maxMessages env)) := by
  obtain ⟨t, there, levels⟩ := base.topic
  obtain ⟨store, stored⟩ := base.store
  simp only [step] at decodable ⊢
  cases found : t.partition id with
  | error bounds =>
    rw [(Broker.consumeBatch_missing there found .fifo group maxMessages env).1]
    exact ⟨base, fine⟩
  | ok p =>
    obtain ⟨t', popped, outcome⟩ := Broker.consumeBatch_broker base.scheduler there stored found
      group maxMessages env
    have levels' : ∀ id' p', t'.partition id' = .ok p' → Level p' := by
      intro id' p' found'
      obtain ⟨p₀, found₀, pop⟩ := popped.backward id' p' found'
      exact level_popped pop (levels id' p₀ found₀)
    have fine' := allFine_popped there popped fine
    rcases outcome with same | ⟨last, committed, ended⟩
    · rw [same] at decodable ⊢
      exact ⟨⟨base.scheduler, base.store, ⟨t', Broker.setTopic_topics_self .., levels'⟩,
        decodable⟩, fine'⟩
    · rw [committed] at decodable ⊢
      refine ⟨⟨base.scheduler, ⟨_, rfl⟩, ⟨t', Broker.setTopic_topics_self .., levels'⟩,
        decodable⟩, ?_⟩
      have stored' : (b.setTopic name t').offsetStore = some store := stored
      refine (allFine_commit_iff stored' fine' group id _ _ _).mpr ?_
      intro t'' p' there' found' member
      rw [Broker.setTopic_topics_self] at there'
      cases there'
      obtain ⟨p₀, found₀, pop⟩ := popped.backward id p' found'
      rw [found] at found₀
      cases found₀
      obtain ⟨n, -, ending, inside, -⟩ := ended rfl
      rw [startOffset_position] at ending
      exact (fine_popped pop).mpr (fine_consumed (levels id p found)
        (fine t id p there found group member) ending inside)

theorem step_spec (base : Base name b) (fine : AllFine name groups b) {event : GroupEvent}
    (healthy : Healthy name b event) :
    Base name (step name b event) ∧
      (AllFine name groups (step name b event) ↔ Safe name groups b event) := by
  cases event with
  | work id call =>
    cases call with
    | append call => exact step_append base fine healthy
    | retain call => exact step_retain base fine healthy
  | commit group id offset now written => exact step_commit base fine
  | consume group id maxMessages env =>
    obtain ⟨base', fine'⟩ := step_consume base fine healthy.1
    exact ⟨base', fun _ => trivial, fun _ => fine'⟩

end Steps

/-! ## Whole runs -/

structure Inv (name : Bytes) (groups : Set Bytes) (b : Broker) : Prop where
  base : Base name b
  fine : AllFine name groups b

variable {name : Bytes} {b : Broker} {t : Topic}

theorem inv_fresh (fresh : Fresh name b) (groups : Set Bytes) :
    Inv name groups b := by
  obtain ⟨t, there, empty⟩ := fresh.topic
  obtain ⟨store, stored, unread⟩ := fresh.store
  have same : ∀ t', b.topics name = some t' → t = t' :=
    fun t' there' => Option.some.inj (there.symm.trans there')
  refine ⟨⟨fresh.scheduler, ⟨store, stored⟩, ⟨t, there, ?_⟩, ?_⟩, ?_⟩
  · intro id p found
    exact level_opened (empty id p found).1 (empty id p found).2
  · intro t' id p there' found offset data record
    obtain rfl := same t' there'
    rw [(empty id p found).1] at record
    have bounds := Log.recordAt_bounds record
    have start : Log.empty.firstIndex = 1 := rfl
    have next : Log.empty.nextIndex = 1 := rfl
    omega
  · intro t' id p there' found group _
    obtain rfl := same t' there'
    left
    have one : b.position group name id = 1 := by
      obtain ⟨cause, failed⟩ := unread group id
      rw [Broker.position, stored]
      dsimp only
      rw [failed]
    rw [one, (empty id p found).1]
    decide

/-- On a healthy disk, with records that can be decoded, no group of `groups`
is ever stuck exactly when every step is safe for them. -/
theorem none_stuck_iff_safe {name : Bytes} {b : Broker} (fresh : Fresh name b)
    (groups : Set Bytes) (events : List GroupEvent)
    (healthy : Runs.Guarded (step name) (Healthy name) b events) :
    (∀ s ∈ Runs.states (step name) b events, NoneStuck name groups s) ↔
      Runs.Guarded (step name) (Safe name groups) b events :=
  Runs.states_good_iff_guarded
    (fun s (inv : Inv name groups s) => (noneStuck_iff inv.base groups).mpr inv.fine)
    (fun _ _ inv healthy safe =>
      have spec := step_spec inv.base inv.fine healthy
      ⟨spec.1, spec.2.mpr safe⟩)
    (fun _ _ inv healthy progress =>
      have spec := step_spec inv.base inv.fine healthy
      spec.2.mp ((noneStuck_iff spec.1 groups).mp progress))
    events b (inv_fresh fresh groups) healthy

/-! ## Publishes as runs -/

theorem appended_run {t' : Topic} (there : b.topics name = some t) (appended : t.Appended t') :
    ∃ events, b.setTopic name t' = Runs.final (step name) b events := by
  cases appended with
  | none => exact ⟨[], Broker.setTopic_same there⟩
  | @call id p found call =>
    exact ⟨[.work id (.append call)], (onPartition_eq there found (.append call)).symm⟩

variable (snap : ConfigSnapshot)

theorem publishWith_run (there : b.topics name = some t) (msg : Message) (env : PublishEnv) :
    ∃ events, (Broker.publishWith snap b name msg env).2.2 = Runs.final (step name) b events := by
  obtain ⟨t', appended, after⟩ := Broker.publishWith_appended snap there msg env
  rw [after]
  exact appended_run there appended

theorem appendGroups_events (env : BatchEnv) (msgs : List Message) (single : Bool)
    (chosen : List Int) (results : List PublishResult) (b : Broker) (t : Topic)
    (there : b.topics name = some t) :
    ∃ events, b.setTopic name (Broker.appendGroups snap env msgs single chosen results t).2 =
      Runs.final (step name) b events := by
  induction chosen generalizing results b t with
  | nil => exact ⟨[], Broker.setTopic_same there⟩
  | cons partIdx rest ih =>
    unfold Broker.appendGroups
    dsimp only
    split
    · obtain ⟨first, after⟩ := appended_run there (appendPartitionBatch_appended snap t partIdx
        ((Broker.group snap.cfg env msgs partIdx).map Prod.fst) (env.append partIdx))
      obtain ⟨later, rest⟩ := ih _ (b.setTopic name _) _ (Broker.setTopic_topics_self ..)
      refine ⟨first ++ later, ?_⟩
      rw [Runs.final_append, ← after, ← rest, Broker.setTopic_setTopic]
    · exact ih _ b t there

theorem publishBatchWith_run (there : b.topics name = some t) (msgs : List Message)
    (env : BatchEnv) :
    ∃ events, (Broker.publishBatchWith snap b name msgs env).2 =
      Runs.final (step name) b events := by
  unfold Broker.publishBatchWith
  simp only [there]
  exact appendGroups_events snap env msgs _ _ _ b t there

/-! ## Samples -/

/-- Reading and decompressing, as a test. -/
def reads (b : Broker) (p : Partition) (offset : Nat) : Bool :=
  (p.read offset).toOption.any fun raw => (b.decompressMessage raw).toOption.isSome

theorem decodable_of_reads (there : b.topics name = some t)
    (all : ∀ p ∈ t.partitions, ∀ offset ∈ List.range' p.log.firstIndex p.log.entries.length,
      reads b p offset = true) : Decodable name b := by
  intro t' id p there' found offset data stored
  rw [there] at there'
  cases there'
  have member := List.mem_of_getElem? ((t.partition_ok_iff id p).mp found).2
  have bounds := Log.recordAt_bounds stored
  have checked := all p member offset (List.mem_range'_1.mpr bounds)
  unfold reads at checked
  cases read : p.read offset with
  | error cause =>
    rw [read] at checked
    cases checked
  | ok raw =>
    rw [read] at checked
    cases decoded : b.decompressMessage raw with
    | error cause =>
      simp [Except.toOption, decoded] at checked
    | ok m => exact ⟨raw, m, rfl, decoded⟩

theorem sampleTopic_empty : Fresh [116] (sampleTopic 0 .fifo) where
  topic := by
    refine ⟨_, rfl, ?_⟩
    intro id p found
    have member := List.mem_of_getElem? ((Topic.partition_ok_iff ..).mp found).2
    rw [List.mem_singleton.mp member]
    exact ⟨rfl, rfl⟩
  scheduler := rfl
  store := ⟨_, rfl, fun _ _ => ⟨_, rfl⟩⟩

def sampleAppend : GroupEvent := .work 0 (.append (.plain [sampleMessage 5 7 118] (steadyEnv 9)))

theorem none_stuck_iff_safe_sample :
    (∀ s ∈ Runs.states (step [116]) (sampleTopic 0 .fifo)
      [sampleAppend, .consume [103] 0 10 ⟨fun _ => 0, 10, true⟩], NoneStuck [116] Set.univ s) ↔
    Runs.Guarded (step [116]) (Safe [116] Set.univ) (sampleTopic 0 .fifo)
      [sampleAppend, .consume [103] 0 10 ⟨fun _ => 0, 10, true⟩] := by
  refine none_stuck_iff_safe sampleTopic_empty Set.univ _ ⟨⟨?_, rfl, ?_⟩, ⟨?_, trivial⟩, trivial⟩
  · exact decodable_of_reads rfl (by decide)
  · intro t p there found
    cases there
    cases found
    decide
  · exact decodable_of_reads rfl (by decide)

/-- A client commits offset zero; its group is stuck although a message is
there. -/
theorem commit_zero_wedges :
    let b := Runs.final (step [116]) (sampleTopic 0 .fifo) [sampleAppend, .commit [103] 0 0 10 true]
    Fresh [116] (sampleTopic 0 .fifo) ∧
    (b.consume [116] [103] 0 0).1 = .error (.next (.read (.walRead 0 .notFound))) ∧
    ¬ NoneStuck [116] Set.univ b := by
  intro b
  have failed : (b.consume [116] [103] 0 0).1 =
      .error (.next (.read (.walRead 0 .notFound))) := by decide
  refine ⟨sampleTopic_empty, failed, ?_⟩
  intro progress
  rcases progress _ 0 _ rfl rfl [103] trivial 0 with ⟨m, next, returned⟩ | ⟨returned, -⟩
  · rw [failed] at returned
    cases returned
  · rw [failed] at returned
    cases returned

end FifoProgress

end NyaQueue
