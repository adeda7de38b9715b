import NyaQueue.Consume
import NyaQueue.PublishBatch

/-!
# Retention by commit floor

Publishes, `ConsumeBatch` calls and retention ticks on one topic of any
schedule mode, without a time or size policy: a tick cuts each partition at the
least offset committed for it.  The run records which messages have been
acknowledged and which have been delivered, by partition and offset.
-/

set_option autoImplicit false

namespace NyaQueue

/-- An acknowledged message and the record that carries it: its own, or the
first one of a batch that was compressed as a whole. -/
structure Receipt where
  partIdx : Int
  offset : Nat
  carrier : Nat
  deriving DecidableEq

structure FloorRun where
  broker : Broker
  acked : List Receipt
  delivered : List (Int × Nat)

inductive FloorEvent where
  | publish (msg : Message) (env : PublishEnv)
  | publishGroup (partIdx : Int) (msgs : List Message) (env : AppendEnv)
  | consume (group : Bytes) (partIdx : Int) (maxMessages : Int) (env : ConsumeEnv)
  | retention (now : Time)

def receipts (partIdx : Int) (batched : Bool) (offsets : List Nat) : List Receipt :=
  offsets.map fun offset => ⟨partIdx, offset, if batched then offsets.headD 0 else offset⟩

namespace FloorRun

def start (b : Broker) : FloorRun where
  broker := b
  acked := []
  delivered := []

def publish (s : FloorRun) (name : Bytes) (msg : Message) (env : PublishEnv) : FloorRun :=
  match s.broker.publish name msg env with
  | (.error _, _, b) => { s with broker := b }
  | (.ok (partIdx, offset), _, b) =>
      { s with broker := b, acked := s.acked ++ receipts partIdx false [offset] }

def publishGroup (s : FloorRun) (name : Bytes) (partIdx : Int) (msgs : List Message)
    (env : AppendEnv) : FloorRun :=
  match s.broker.topics name with
  | none => s
  | some t =>
      match appendPartitionBatch s.broker.snap t partIdx msgs env with
      | (.error _, t') => { s with broker := s.broker.setTopic name t' }
      | (.ok offsets, t') =>
          { s with
            broker := s.broker.setTopic name t'
            acked := s.acked ++ receipts partIdx (usesBatch s.broker.snap msgs) offsets }

def consume (s : FloorRun) (mode : ScheduleMode) (name group : Bytes) (partIdx : Int)
    (maxMessages : Int) (env : ConsumeEnv) : FloorRun where
  broker := (s.broker.consumeBatch name group partIdx maxMessages env).2
  acked := s.acked
  delivered := s.delivered ++
    (Broker.batchOffsets mode s.broker name group partIdx maxMessages env).map fun offset =>
      (partIdx, offset)

/-- One event on the topic `name`, whose scheduler is that of `mode`. -/
def step (mode : ScheduleMode) (name : Bytes) (s : FloorRun) : FloorEvent → FloorRun
  | .publish msg env => s.publish name msg env
  | .publishGroup partIdx msgs env => s.publishGroup name partIdx msgs env
  | .consume group partIdx maxMessages env => s.consume mode name group partIdx maxMessages env
  | .retention now => { s with broker := s.broker.retentionTick name now }

def Undelivered (s : FloorRun) (a : Receipt) : Prop :=
  a ∈ s.acked ∧ (a.partIdx, a.offset) ∉ s.delivered

/-- The log still holds the record at the offset of the message and the record
that carries it. -/
def StoredIn (p : Partition) (a : Receipt) : Prop :=
  (∃ data, p.log.recordAt a.offset = some data) ∧ ∃ data, p.log.recordAt a.carrier = some data

/-- Every acknowledged message that no consumer has been given is in the log. -/
def KeepsUndelivered (name : Bytes) (s : FloorRun) : Prop :=
  ∀ a, s.Undelivered a → ∃ t p, s.broker.topics name = some t ∧
    t.partition a.partIdx = .ok p ∧ StoredIn p a

/-- The floor of a tick that cuts partition `p`: above one and within the log. -/
def CutsAt (store : OffsetStore) (name : Bytes) (p : Partition) (floor : Nat) : Prop :=
  1 < store.commitFloor name p.id ∧ floor = offsetOfInt64 (store.commitFloor name p.id) ∧
    floor < p.log.nextIndex

/-- What a retention tick needs: the cut does not separate an undelivered
message from the record that carries it, and outside FIFO mode no message in
front of the cut is undelivered. -/
def SafeTick (mode : ScheduleMode) (name : Bytes) (s : FloorRun) : FloorEvent → Prop
  | .retention _ => ∀ a t store p floor, s.Undelivered a → s.broker.topics name = some t →
      s.broker.offsetStore = some store → t.partition a.partIdx = .ok p →
      CutsAt store name p floor →
        ¬ (a.carrier < floor ∧ floor ≤ a.offset) ∧ (mode ≠ .fifo → ¬ a.offset < floor)
  | _ => True

/-! ## The invariant -/

/-- What holds of an acknowledged message on partition `p`. -/
structure ReceiptInv (s : FloorRun) (p : Partition) (a : Receipt) : Prop where
  positive : 1 ≤ a.carrier
  carrier : a.carrier ≤ a.offset
  inside : a.offset < p.log.nextIndex
  kept : (a.partIdx, a.offset) ∉ s.delivered → p.log.firstIndex ≤ a.carrier

/-- In FIFO mode a group that has committed an offset has been given all
messages in front of it. -/
def Covered (name : Bytes) (s : FloorRun) (t : Topic) (store : OffsetStore) : Prop :=
  ∀ id p c, t.partition id = .ok p → c ∈ store.committed name id →
    offsetOfInt64 c ≤ p.log.nextIndex ∧ ∀ a ∈ s.acked, a.partIdx = id →
      a.offset < offsetOfInt64 c → (a.partIdx, a.offset) ∈ s.delivered

structure TopicInv (mode : ScheduleMode) (name : Bytes) (s : FloorRun) (t : Topic)
    (store : OffsetStore) : Prop where
  ids : ∀ id p, t.partition id = .ok p → p.id = id
  receipts : ∀ a ∈ s.acked, ∃ p, t.partition a.partIdx = .ok p ∧ ReceiptInv s p a
  covered : mode = .fifo → Covered name s t store

structure Inv (mode : ScheduleMode) (name : Bytes) (s : FloorRun) : Prop where
  scheduler : s.broker.schedulers name = some mode
  age : s.broker.snap.cfg.retentionMaxAge = 0
  bytes : s.broker.snap.cfg.retentionMaxBytes = 0
  topic : ∃ t store, s.broker.topics name = some t ∧ s.broker.offsetStore = some store ∧
    TopicInv mode name s t store

section Steps

variable {mode : ScheduleMode} {name : Bytes} {s : FloorRun} {t t' : Topic}
  {store store' : OffsetStore}

theorem Inv.keepsUndelivered (inv : Inv mode name s) : KeepsUndelivered name s := by
  intro a undelivered
  obtain ⟨t, store, there, -, topic⟩ := inv.topic
  obtain ⟨p, found, receipt⟩ := topic.receipts a undelivered.1
  have first := receipt.kept undelivered.2
  have order := receipt.carrier
  have last := receipt.inside
  refine ⟨t, p, there, found, ?_, ?_⟩
  · exact (p.log.recordAt_isSome_iff a.offset).mpr ⟨by omega, last⟩
  · exact (p.log.recordAt_isSome_iff a.carrier).mpr ⟨first, by omega⟩

theorem TopicInv.grow (inv : TopicInv mode name s t store) (grown : t.Related Partition.Grows t')
    (b : Broker) (new : List Receipt)
    (fresh : ∀ a ∈ new, ∃ p p', t.partition a.partIdx = .ok p ∧ t'.partition a.partIdx = .ok p' ∧
      p.log.nextIndex ≤ a.carrier ∧ a.carrier ≤ a.offset ∧ a.offset < p'.log.nextIndex) :
    TopicInv mode name { s with broker := b, acked := s.acked ++ new } t' store := by
  refine ⟨?_, ?_, ?_⟩
  · intro id p' found'
    obtain ⟨p, found, grows⟩ := grown.backward id p' found'
    rw [grows.id, inv.ids id p found]
  · intro a member
    rcases List.mem_append.mp member with before | now
    · obtain ⟨p, found, receipt⟩ := inv.receipts a before
      obtain ⟨p', found', grows⟩ := grown.forward _ p found
      refine ⟨p', found', receipt.positive, receipt.carrier, ?_, ?_⟩
      · exact Nat.lt_of_lt_of_le receipt.inside grows.nextIndex
      · rw [grows.firstIndex]
        exact receipt.kept
    · obtain ⟨p, p', found, found', behind, order, inside⟩ := fresh a now
      obtain ⟨q, found'', grows⟩ := grown.forward _ p found
      rw [found'] at found''
      cases found''
      have positive := p.log.firstIndex_pos
      have first := grows.firstIndex
      unfold Log.nextIndex at behind
      exact ⟨p', found', by omega, order, inside, fun _ => by omega⟩
  · intro fifo id p' c found' committed
    obtain ⟨p, found, grows⟩ := grown.backward id p' found'
    obtain ⟨bound, delivered⟩ := inv.covered fifo id p c found committed
    refine ⟨Nat.le_trans bound grows.nextIndex, ?_⟩
    intro a member here below
    rcases List.mem_append.mp member with before | now
    · exact delivered a before here below
    · obtain ⟨q, -, foundq, -, behind, order, -⟩ := fresh a now
      rw [here, found] at foundq
      cases foundq
      omega

variable {partIdx : Int} {p : Partition}

theorem inv_acknowledge (inv : Inv mode name s) (there : s.broker.topics name = some t)
    {q : Partition} (found : t.partition partIdx = .ok p) (call : AppendCall) {offsets : List Nat}
    (success : call.run p = (.ok offsets, q)) (batched : Bool) :
    Inv mode name
      { s with
        broker := s.broker.setTopic name (t.setPartition partIdx q)
        acked := s.acked ++ receipts partIdx batched offsets } := by
  obtain ⟨t₀, store, there₀, stored, topic⟩ := inv.topic
  rw [there] at there₀
  cases there₀
  refine ⟨inv.scheduler, inv.age, inv.bytes, _, store, Broker.setTopic_topics_self .., stored, ?_⟩
  apply topic.grow (Topic.Appended.of_run found call success).grows
  intro a member
  obtain ⟨offset, inside, rfl⟩ := List.mem_map.mp member
  obtain ⟨behind, order, last⟩ := Partition.run_offsets success offset inside
  refine ⟨p, q, found, Topic.partition_setPartition_self found q, ?_⟩
  dsimp only
  split
  · exact ⟨behind, order, last⟩
  · exact ⟨Nat.le_trans behind order, Nat.le_refl _, last⟩

theorem inv_refuse (inv : Inv mode name s) (there : s.broker.topics name = some t)
    (appended : t.Appended t') :
    Inv mode name { s with broker := s.broker.setTopic name t' } := by
  obtain ⟨t₀, store, there₀, stored, topic⟩ := inv.topic
  rw [there] at there₀
  cases there₀
  refine ⟨inv.scheduler, inv.age, inv.bytes, t', store, Broker.setTopic_topics_self .., stored, ?_⟩
  have grown := topic.grow appended.grows (s.broker.setTopic name t') [] (by simp)
  rw [List.append_nil] at grown
  exact grown

theorem inv_publish (inv : Inv mode name s) (msg : Message) (env : PublishEnv) :
    Inv mode name (s.publish name msg env) := by
  obtain ⟨t, store, there, -, -⟩ := inv.topic
  unfold publish Broker.publish
  rcases Broker.publishWith_cases s.broker.snap there msg env with
    ⟨cause, msg', t', result, refused⟩ | ⟨offset, msg', p, q, written, found, result, -, success⟩
  · rw [result]
    exact inv_refuse inv there refused.appended
  · rw [result]
    exact inv_acknowledge inv there found (.plain [written] env.append) success false

theorem inv_publishGroup (inv : Inv mode name s) (partIdx : Int) (msgs : List Message)
    (env : AppendEnv) : Inv mode name (s.publishGroup name partIdx msgs env) := by
  obtain ⟨t, store, there, -, -⟩ := inv.topic
  unfold publishGroup
  rw [there]
  dsimp only
  rcases appendPartitionBatch_run s.broker.snap t partIdx msgs env with
    ⟨cause, t', result, refused⟩ | ⟨offsets, p, q, call, found, result, success, -⟩
  · rw [result]
    exact inv_refuse inv there refused.appended
  · rw [result]
    exact inv_acknowledge inv there found call success _

theorem TopicInv.deliver (inv : TopicInv mode name s t store) (b : Broker)
    (offsets : List (Int × Nat))
    (covered : mode = .fifo → Covered name
      { s with broker := b, delivered := s.delivered ++ offsets } t store') :
    TopicInv mode name { s with broker := b, delivered := s.delivered ++ offsets } t store' := by
  refine ⟨inv.ids, ?_, covered⟩
  intro a member
  obtain ⟨p, found, receipt⟩ := inv.receipts a member
  refine ⟨p, found, receipt.positive, receipt.carrier, receipt.inside, ?_⟩
  exact fun undelivered => receipt.kept fun delivered =>
    undelivered (List.mem_append_left _ delivered)

theorem Inv.startOffset (inv : Inv .fifo name s) (there : s.broker.topics name = some t)
    (found : t.partition partIdx = .ok p) (group : Bytes) (a : Receipt) (member : a ∈ s.acked)
    (here : a.partIdx = partIdx) (below : a.offset < s.broker.startOffset group name partIdx) :
    (a.partIdx, a.offset) ∈ s.delivered := by
  obtain ⟨t₀, store, there₀, stored, topic⟩ := inv.topic
  rw [there] at there₀
  cases there₀
  unfold Broker.startOffset at below
  rw [stored] at below
  dsimp only at below
  cases load : store.load group name partIdx with
  | error cause =>
    rw [load] at below
    obtain ⟨q, -, receipt⟩ := topic.receipts a member
    have positive := receipt.positive
    have order := receipt.carrier
    dsimp only at below
    omega
  | ok c =>
    rw [load] at below
    exact (topic.covered rfl partIdx p c found (OffsetStore.load_mem_committed load)).2 a member
      here below

theorem Covered.deliver (covered : Covered name s t store) (b : Broker)
    (offsets : List (Int × Nat)) :
    Covered name { s with broker := b, delivered := s.delivered ++ offsets } t store := by
  intro id p c found committed
  obtain ⟨bound, delivered⟩ := covered id p c found committed
  exact ⟨bound, fun a member here below =>
    List.mem_append_left _ (delivered a member here below)⟩

theorem Covered.commit (covered : Covered name s t store) (found : t.partition partIdx = .ok p)
    {start n : Nat} (before : ∀ a ∈ s.acked, a.partIdx = partIdx → a.offset < start →
      (a.partIdx, a.offset) ∈ s.delivered) (inside : start + n ≤ p.log.nextIndex) (group : Bytes)
    (now : Time) (written : Bool) (b : Broker) :
    Covered name
      { s with
        broker := b
        delivered := s.delivered ++ (List.range' start n).map fun offset => (partIdx, offset) } t
      (store.commit group name partIdx (int64OfOffset (start + n)) now written).2 := by
  intro id q c foundq committed
  rcases OffsetStore.mem_committed_commit committed with old | ⟨rfl, rfl⟩
  · exact covered.deliver b _ id q c foundq old
  · rw [found] at foundq
    cases foundq
    have fits := p.log.next_fits
    unfold Log.nextIndex at inside
    rw [offsetOfInt64_int64OfOffset (by omega)]
    refine ⟨inside, ?_⟩
    intro a member here below
    by_cases earlier : a.offset < start
    · exact List.mem_append_left _ (before a member here earlier)
    · refine List.mem_append_right _ (List.mem_map.mpr ⟨a.offset, ?_, by rw [here]⟩)
      exact List.mem_range'_1.mpr ⟨by omega, below⟩

theorem inv_consume (inv : Inv mode name s) (group : Bytes) (partIdx : Int) (maxMessages : Int)
    (env : ConsumeEnv) : Inv mode name (s.consume mode name group partIdx maxMessages env) := by
  obtain ⟨t, store, there, stored, topic⟩ := inv.topic
  cases found : t.partition partIdx with
  | error bounds =>
    obtain ⟨same, nothing⟩ := Broker.consumeBatch_missing there found mode group maxMessages env
    unfold consume
    rw [same, nothing, List.map_nil, List.append_nil]
    exact inv
  | ok p =>
    obtain ⟨t', popped, outcome⟩ := Broker.consumeBatch_broker inv.scheduler there stored found
      group maxMessages env
    have grown := popped.imp fun _ _ => Partition.Popped.grows
    obtain ⟨p', found', grows⟩ := grown.forward partIdx p found
    have topic' := topic.grow grown s.broker [] (by simp)
    rw [List.append_nil] at topic'
    unfold consume
    rcases outcome with same | ⟨last, committed, fifo⟩
    · rw [same]
      refine ⟨inv.scheduler, inv.age, inv.bytes, t', store, Broker.setTopic_topics_self .., stored,
        topic'.deliver _ _ fun fifoMode => (topic'.covered fifoMode).deliver _ _⟩
    · rw [committed]
      refine ⟨inv.scheduler, inv.age, inv.bytes, t', _, Broker.setTopic_topics_self .., rfl,
        topic'.deliver _ _ ?_⟩
      rintro rfl
      obtain ⟨n, -, rfl, bound, offsets⟩ := fifo rfl
      rw [offsets]
      exact (topic'.covered rfl).commit found' (inv.startOffset there found group)
        (Nat.le_trans bound grows.nextIndex) group env.now env.written _

/-- What a tick does to one partition. -/
structure Cut (store : OffsetStore) (name : Bytes) (p q : Partition) : Prop where
  id : q.id = p.id
  nextIndex : q.log.nextIndex = p.log.nextIndex
  firstIndex : (q.log.firstIndex = p.log.firstIndex ∧
      ∀ floor, CutsAt store name p floor → floor < p.log.firstIndex) ∨
    (CutsAt store name p q.log.firstIndex ∧ p.log.firstIndex ≤ q.log.firstIndex)

theorem retain_cut {cfg : Config} (age : cfg.retentionMaxAge = 0) (bytes : cfg.retentionMaxBytes = 0)
    (store : OffsetStore) (name : Bytes) (now : Time) (p : Partition) :
    Cut store name p (Broker.retain cfg (some store) name now p) := by
  have retained : Broker.retain cfg (some store) name now p =
      if 1 < store.commitFloor name p.id then
        (p.truncateFront (offsetOfInt64 (store.commitFloor name p.id))).2 else p := by
    simp [Broker.retain, age, bytes]
  rw [retained]
  split
  · rename_i positive
    have first := p.log.firstIndex_pos
    unfold Partition.truncateFront
    split
    · refine ⟨rfl, rfl, .inl ⟨rfl, ?_⟩⟩
      rintro floor ⟨-, rfl, -⟩
      omega
    · cases truncated : p.log.truncateFront (offsetOfInt64 (store.commitFloor name p.id)) with
      | error cause =>
        refine ⟨rfl, rfl, .inl ⟨rfl, ?_⟩⟩
        rintro floor ⟨-, rfl, below⟩
        by_contra inside
        obtain ⟨log, success⟩ := Log.truncateFront_of_inside ⟨Nat.not_lt.mp inside, below⟩
        rw [success] at truncated
        cases truncated
      | ok log =>
        obtain ⟨low, high, cut, next⟩ := Log.truncateFront_ok truncated
        refine ⟨rfl, next, .inr ⟨⟨positive, cut, ?_⟩, ?_⟩⟩
        · rw [cut]
          exact high
        · rw [cut]
          exact low
  · rename_i low
    exact ⟨rfl, rfl, .inl ⟨rfl, fun floor cuts => absurd cuts.1 low⟩⟩

theorem TopicInv.floor_le (inv : TopicInv .fifo name s t store) {a : Receipt}
    (undelivered : s.Undelivered a) (found : t.partition a.partIdx = .ok p) {floor : Nat}
    (cuts : CutsAt store name p floor) : floor ≤ a.offset := by
  obtain ⟨positive, rfl, -⟩ := cuts
  rw [inv.ids a.partIdx p found] at positive ⊢
  obtain ⟨some, least⟩ := OffsetStore.commitFloor_spec positive
  obtain ⟨c, committed⟩ := List.exists_mem_of_ne_nil _ some
  have le := offsetOfInt64_le positive (least c committed)
  by_contra below
  exact undelivered.2 ((inv.covered rfl a.partIdx p c found committed).2 a undelivered.1 rfl
    (by omega))

/-- The topic after a tick. -/
def ticked (cfg : Config) (store : OffsetStore) (name : Bytes) (now : Time) (t : Topic) : Topic where
  name := t.name
  partitions := t.partitions.map (Broker.retain cfg (some store) name now)

theorem retentionTick_eq (there : s.broker.topics name = some t)
    (stored : s.broker.offsetStore = some store) (now : Time) :
    s.broker.retentionTick name now =
      s.broker.setTopic name (ticked s.broker.snap.cfg store name now t) := by
  unfold Broker.retentionTick
  rw [there, stored]
  rfl

theorem Inv.ticked (inv : Inv mode name s) (store : OffsetStore) (now : Time) (t : Topic) :
    t.Related (Cut store name) (ticked s.broker.snap.cfg store name now t) :=
  .map fun p => retain_cut inv.age inv.bytes store name now p

theorem inv_retention (inv : Inv mode name s) {now : Time}
    (safe : SafeTick mode name s (.retention now)) :
    Inv mode name { s with broker := s.broker.retentionTick name now } := by
  obtain ⟨t, store, there, stored, topic⟩ := inv.topic
  have cut := inv.ticked store now t
  rw [retentionTick_eq there stored]
  refine ⟨inv.scheduler, inv.age, inv.bytes, _, store, Broker.setTopic_topics_self .., stored, ?_⟩
  refine ⟨?_, ?_, ?_⟩
  · intro id p' found'
    obtain ⟨p, found, changed⟩ := cut.backward id p' found'
    rw [changed.id, topic.ids id p found]
  · intro a member
    obtain ⟨p, found, receipt⟩ := topic.receipts a member
    obtain ⟨p', found', changed⟩ := cut.forward _ p found
    refine ⟨p', found', receipt.positive, receipt.carrier, ?_, ?_⟩
    · rw [changed.nextIndex]
      exact receipt.inside
    · intro undelivered
      rcases changed.firstIndex with ⟨same, -⟩ | ⟨cuts, -⟩
      · rw [same]
        exact receipt.kept undelivered
      · obtain ⟨together, ordered⟩ := safe a t store p _ ⟨member, undelivered⟩ there stored found cuts
        have behind : p'.log.firstIndex ≤ a.offset := by
          by_cases fifo : mode = .fifo
          · subst fifo
            exact topic.floor_le ⟨member, undelivered⟩ found cuts
          · exact Nat.not_lt.mp (ordered fifo)
        by_contra before
        exact together ⟨Nat.not_le.mp before, behind⟩
  · intro fifo id p' c found' committed
    obtain ⟨p, found, changed⟩ := cut.backward id p' found'
    rw [changed.nextIndex]
    exact topic.covered fifo id p c found committed

theorem safeTick_of_keeps (inv : Inv mode name s) {now : Time}
    (keeps : KeepsUndelivered name { s with broker := s.broker.retentionTick name now }) :
    SafeTick mode name s (.retention now) := by
  obtain ⟨t₀, store₀, there₀, stored₀, topic⟩ := inv.topic
  intro a t store p floor undelivered there stored found cuts
  rw [there] at there₀
  cases there₀
  rw [stored] at stored₀
  cases stored₀
  obtain ⟨t', p', there', found', -, carried⟩ := keeps a undelivered
  rw [retentionTick_eq there stored, Broker.setTopic_topics_self] at there'
  cases there'
  obtain ⟨q, foundq, changed⟩ := (inv.ticked _ now _).backward a.partIdx p' found'
  rw [found] at foundq
  cases foundq
  obtain ⟨r, foundr, receipt⟩ := topic.receipts a undelivered.1
  have order := receipt.carrier
  have low := ((p'.log.recordAt_isSome_iff a.carrier).mp carried).1
  have floorLow : floor ≤ p'.log.firstIndex := by
    rcases changed.firstIndex with ⟨same, above⟩ | ⟨⟨-, same, -⟩, -⟩
    · rw [same]
      exact Nat.le_of_lt (above floor cuts)
    · rw [same, cuts.2.1]
  exact ⟨by omega, fun _ => by omega⟩

end Steps

/-! ## Whole runs -/

variable {mode : ScheduleMode} {name : Bytes}

theorem inv_step {s : FloorRun} (inv : Inv mode name s) {event : FloorEvent}
    (safe : SafeTick mode name s event) :
    Inv mode name (s.step mode name event) := by
  cases event with
  | publish msg env => exact inv_publish inv msg env
  | publishGroup partIdx msgs env => exact inv_publishGroup inv partIdx msgs env
  | consume group partIdx maxMessages env => exact inv_consume inv group partIdx maxMessages env
  | retention now => exact inv_retention inv safe

theorem safeTick_of_step {s : FloorRun} (inv : Inv mode name s) {event : FloorEvent}
    (keeps : KeepsUndelivered name (s.step mode name event)) : SafeTick mode name s event := by
  cases event with
  | publish msg env => trivial
  | publishGroup partIdx msgs env => trivial
  | consume group partIdx maxMessages env => trivial
  | retention now => exact safeTick_of_keeps inv keeps

/-- A topic that has just been created, without a retention policy and without
commits. -/
structure Fresh (mode : ScheduleMode) (name : Bytes) (b : Broker) : Prop where
  created : ∃ (b₀ : Broker) (logs : List Log), b₀.createTopic name mode logs = some b
  age : b.snap.cfg.retentionMaxAge = 0
  bytes : b.snap.cfg.retentionMaxBytes = 0
  store : ∃ store, b.offsetStore = some store ∧ ∀ id, store.committed name id = []

theorem inv_start {b : Broker} (fresh : Fresh mode name b) :
    Inv mode name (start b) := by
  obtain ⟨b₀, logs, created⟩ := fresh.created
  obtain ⟨store, stored, nothing⟩ := fresh.store
  obtain ⟨-, -, scheduler, t, there, partitions⟩ := Broker.createTopic_ok created
  refine ⟨scheduler, fresh.age, fresh.bytes, t, store, there, stored, ?_, ?_, ?_⟩
  · intro id p found
    obtain ⟨log, rfl⟩ := partitions id p found
    rfl
  · intro a member
    cases member
  · intro _ id p c _ committed
    rw [nothing] at committed
    cases committed

/-- Acknowledged messages that no consumer has been given stay in the log
throughout a run exactly when all its retention ticks are safe. -/
theorem run_keeps_undelivered_iff {mode : ScheduleMode} {name : Bytes} {b : Broker}
    (fresh : Fresh mode name b) (events : List FloorEvent) :
    (∀ s ∈ Runs.states (step mode name) (start b) events, KeepsUndelivered name s) ↔
      Runs.Guarded (step mode name) (SafeTick mode name) (start b) events :=
  Runs.states_good_iff_guarded (fun (s : FloorRun) (inv : Inv mode name s) => inv.keepsUndelivered)
    (fun _ _ inv _ safe => inv_step inv safe) (fun _ _ inv _ keeps => safeTick_of_step inv keeps)
    events (start b) (inv_start fresh) (Runs.guarded_true events _)

variable (mode : ScheduleMode)

theorem takesGroups (name : Bytes) (snap : ConfigSnapshot) :
    Broker.TakesGroups (step mode name) broker .publishGroup snap name
      (fun s => s.broker.snap = snap)
      (fun s partIdx offset _ => ∃ carrier, ⟨partIdx, offset, carrier⟩ ∈ s.acked) where
  fits_step := by
    intro s t partIdx msgs env current there
    simp only [step, publishGroup, there]
    split <;> exact current
  broker_step := by
    intro s t partIdx msgs env current there
    simp only [step, publishGroup, there, current]
    split <;> (rename_i result; rw [result])
  acked_kept := by
    rintro s t partIdx msgs env id offset m current there ⟨carrier, member⟩
    refine ⟨carrier, ?_⟩
    simp only [step, publishGroup, there]
    split
    · exact member
    · exact List.mem_append_left _ member
  acked_ok := by
    intro s t partIdx msgs env offsets current there success j m offset message position
    simp only [step, publishGroup, there, current]
    split
    · rename_i result
      rw [result] at success
      cases success
    · rename_i result
      rw [result] at success
      cases success
      exact ⟨_, List.mem_append_right _
        (List.mem_map.mpr ⟨offset, List.mem_of_getElem? position, rfl⟩)⟩

theorem publishBatch_receipts (s : FloorRun) {t : Topic} (there : s.broker.topics name = some t)
    (msgs : List Message) (env : BatchEnv) :
    let keys := Broker.groupKeys s.broker.snap.cfg env msgs
    let s' := Runs.final (step mode name) s
      (Broker.groupEvents .publishGroup s.broker.snap.cfg env msgs (keys.length = 1) keys)
    let published := Broker.publishBatchWith s.broker.snap s.broker name msgs env
    s'.broker = published.2 ∧
      ∀ (i : Nat) (m : Message) (r : PublishResult), msgs[i]? = some m →
        published.1[i]? = some r → r.err = none →
        ∃ carrier, ⟨r.partition, r.offset, carrier⟩ ∈ s'.acked :=
  (Broker.publishBatch_run (takesGroups mode name s.broker.snap) rfl there msgs env).2

/-- A broker without a retention policy, and its only topic. -/
def policyFree : Broker :=
  Broker.new sampleLibrary { defaultConfig with retentionMaxAge := 0, retentionMaxBytes := 0 }
    (some (OffsetStore.empty 0))

def policyFreeTopic (mode : ScheduleMode) : Broker :=
  (policyFree.createTopic [116] mode [Log.empty]).getD policyFree

theorem policyFreeTopic_fresh : Fresh mode [116] (policyFreeTopic mode) where
  created := ⟨policyFree, [Log.empty], rfl⟩
  age := rfl
  bytes := rfl
  store := ⟨OffsetStore.empty 0, rfl, fun _ => rfl⟩

/-- A message of low priority, one of high priority, a consumer that takes one
message, and a tick. -/
def overtaking : List FloorEvent :=
  [.publish (sampleMessage 2 7 118) ⟨0, false, 8, steadyEnv 9⟩,
   .publish (sampleMessage 8 7 119) ⟨0, false, 8, steadyEnv 9⟩,
   .consume [103] 0 1 ⟨fun _ => 0, 10, true⟩,
   .retention 11]

theorem run_keeps_undelivered_iff_overtaking :
    (∀ s ∈ Runs.states (step .strictPriority [116]) (start (policyFreeTopic .strictPriority))
      overtaking, KeepsUndelivered [116] s) ↔
    Runs.Guarded (step .strictPriority [116]) (SafeTick .strictPriority [116])
      (start (policyFreeTopic .strictPriority)) overtaking :=
  run_keeps_undelivered_iff (policyFreeTopic_fresh .strictPriority) overtaking

/-- The first index of the only partition. -/
def firstStored (s : FloorRun) : Option Nat :=
  (s.broker.topics [116]).bind fun t => (t.partition 0).toOption.map fun p => p.log.firstIndex

/-- The message of high priority is delivered first and its offset committed;
the tick then drops the other one, which nobody has been given. -/
theorem priority_floor_drops_undelivered :
    let s := Runs.final (step .strictPriority [116]) (start (policyFreeTopic .strictPriority))
      overtaking
    Fresh .strictPriority [116] (policyFreeTopic .strictPriority) ∧
    s.acked = [⟨0, 1, 1⟩, ⟨0, 2, 2⟩] ∧ s.delivered = [(0, 2)] ∧ s.firstStored = some 2 ∧
    ¬ KeepsUndelivered [116] s := by
  intro s
  have outcome : (s.acked, s.delivered, s.firstStored) =
      ([⟨0, 1, 1⟩, ⟨0, 2, 2⟩], [(0, 2)], some 2) := by decide +kernel
  obtain ⟨acked, rest⟩ := Prod.mk.inj outcome
  obtain ⟨delivered, first⟩ := Prod.mk.inj rest
  refine ⟨policyFreeTopic_fresh _, acked, delivered, first, ?_⟩
  intro keeps
  obtain ⟨t, p, there, found, stored, -⟩ := keeps ⟨0, 1, 1⟩
    ⟨by rw [acked]; simp, by rw [delivered]; simp⟩
  have low := ((p.log.recordAt_isSome_iff 1).mp stored).1
  simp only [firstStored, there, Option.bind_some, found, Except.toOption, Option.map_some,
    Option.some.injEq] at first
  omega

end FloorRun

end NyaQueue
