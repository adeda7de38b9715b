import NyaQueue.TopicRaces
import NyaQueue.MetricsCollector

/-!
# Metrics of several topics

The collector counts by partition id only, while every topic numbers its
partitions from 0.  `traffic` keeps what each partition of each topic has really
produced and consumed since the topic was created; the depths that `Collect`
reports are compared with it.
-/

set_option autoImplicit false

namespace NyaQueue

def Topic.partIDs (t : Topic) : List Nat := t.partitions.map fun p => p.id.toNat

theorem DiskBroker.createTopic_topics (b : DiskBroker) (name : Bytes) (numPartitions : Int)
    (mode : ScheduleMode) (env : CreateEnv) :
    (∃ cause, (b.createTopic name numPartitions mode env).1 = .error cause ∧
      (b.createTopic name numPartitions mode env).2.broker.topics = b.broker.topics) ∨
    ∃ t, (b.createTopic name numPartitions mode env).1 = .ok () ∧ b.broker.topics name = none ∧
      t.partIDs = List.range (partitionCount numPartitions) ∧
      (b.createTopic name numPartitions mode env).2.broker.topics =
        Function.update b.broker.topics name (some t) := by
  have logs := openLogs_ok b.dir name env (partitionCount numPartitions) 0 b.disk []
  unfold createTopic
  generalize openLogs b.dir name env (partitionCount numPartitions) 0 b.disk [] = opened at logs ⊢
  obtain ⟨outcome, disk⟩ := opened
  cases outcome with
  | error cause => exact .inl ⟨cause, rfl, rfl⟩
  | ok found =>
    have length : found.length = partitionCount numPartitions := by simp [logs found rfl]
    cases there : b.broker.topics name with
    | some t =>
      refine .inl ⟨.alreadyExists name, ?_⟩
      simp [register, Broker.createTopic, there]
    | none =>
      refine .inr ⟨b.broker.newTopic name mode found, ?_, rfl, ?_, ?_⟩
      · simp [register, Broker.createTopic, there]
      · apply List.ext_getElem
        · simp [Topic.partIDs, Broker.newTopic, length]
        · intro i _ _
          simp [Topic.partIDs, Broker.newTopic, Partition.new]
      · simp only [register, Broker.createTopic, there]
        rfl

theorem DiskBroker.deleteTopic_topics (b : DiskBroker) (name : Bytes) (env : DeleteEnv) :
    (b.deleteTopic name env).2.broker.topics = Function.update b.broker.topics name none := by
  have removed : (b.unregister name).broker.topics = Function.update b.broker.topics name none := rfl
  apply b.deleteTopic_cases name env
    (motive := fun r => r.2.broker.topics = Function.update b.broker.topics name none)
  case missing =>
    intro free
    rw [← free, Function.update_eq_self]
  case notClosed => exact removed
  case notRemoved => exact removed
  case deleted => exact removed

/-! ## The broker with its collector -/

structure MeasuredBroker where
  store : DiskBroker
  metrics : MetricsCollector

namespace MeasuredBroker

def topics (b : MeasuredBroker) : Bytes → Option Topic := b.store.broker.topics

def createTopic (b : MeasuredBroker) (name : Bytes) (numPartitions : Int) (mode : ScheduleMode)
    (env : CreateEnv) : Except TopicError Unit × MeasuredBroker :=
  let result := b.store.createTopic name numPartitions mode env
  (result.1, { b with store := result.2 })

/-- `DeleteTopic`; the collector is told when the topic is closed. -/
def deleteTopic (b : MeasuredBroker) (name : Bytes) (env : DeleteEnv) :
    Except TopicError Unit × MeasuredBroker :=
  let result := b.store.deleteTopic name env
  let metrics :=
    match b.topics name with
    | none => b.metrics
    | some t =>
        if t.closes env then t.partIDs.foldl MetricsCollector.removePartition b.metrics
        else b.metrics
  (result.1, { store := result.2, metrics := metrics })

/-- The partitions of the topics `order`, as `Collect` walks them. -/
def partitions (b : MeasuredBroker) (order : List Bytes) : List (Bytes × Nat) :=
  order.flatMap fun name =>
    match b.topics name with
    | none => []
    | some t => t.partIDs.map fun p => (name, p)

def collect (b : MeasuredBroker) (order : List Bytes) (now : Int) : Metrics Rat × MeasuredBroker :=
  let result := b.metrics.collect ((b.partitions order).map Prod.snd) now
  (result.1, { b with metrics := result.2 })

/-- The topic `name` is registered and has a partition `p`. -/
def Has (b : MeasuredBroker) (name : Bytes) (p : Nat) : Prop :=
  ∃ t, b.topics name = some t ∧ p ∈ t.partIDs

theorem mem_partitions (b : MeasuredBroker) (order : List Bytes) (name : Bytes) (p : Nat) :
    (name, p) ∈ b.partitions order ↔ name ∈ order ∧ b.Has name p := by
  simp only [partitions, List.mem_flatMap, Has]
  constructor
  · rintro ⟨name', walked, inside⟩
    cases there : b.topics name' with
    | none =>
      rw [there] at inside
      cases inside
    | some t =>
      rw [there] at inside
      obtain ⟨p', id, same⟩ := List.mem_map.mp inside
      cases same
      exact ⟨walked, t, there, id⟩
  · rintro ⟨walked, t, there, id⟩
    refine ⟨name, walked, ?_⟩
    rw [there]
    exact List.mem_map_of_mem id

theorem countersAt_foldl_remove (ids : List Nat) (mc : MetricsCollector) (p : Nat) :
    (ids.foldl MetricsCollector.removePartition mc).countersAt p =
      if p ∈ ids then 0 else mc.countersAt p := by
  induction ids generalizing mc with
  | nil => simp
  | cons id rest ih =>
    rw [List.foldl_cons, ih, MetricsCollector.countersAt_removePartition]
    by_cases later : p ∈ rest
    · simp [later]
    · by_cases here : p = id <;> simp [here, later]

end MeasuredBroker

/-! ## Runs -/

inductive MeasuredEvent where
  /-- `RecordProduce`, or `RecordProduceBatch` of `n` messages -/
  | produce (name : Bytes) (p n : Nat)
  | consume (name : Bytes) (p : Nat)
  | create (name : Bytes) (numPartitions : Int) (mode : ScheduleMode) (env : CreateEnv)
  | delete (name : Bytes) (env : DeleteEnv)
  | collect (order : List Bytes) (now : Int)

structure MeasuredRun where
  broker : MeasuredBroker
  /-- what a partition of a topic has produced and consumed since its creation -/
  traffic : Bytes → Nat → PartCounters
  /-- the names of the topics that have been created -/
  created : List Bytes

namespace MeasuredRun

def start (store : DiskBroker) (now : Int) : MeasuredRun where
  broker := { store := store, metrics := .new now }
  traffic _ _ := 0
  created := []

def record (s : MeasuredRun) (metrics : MetricsCollector) (name : Bytes) (p : Nat)
    (delta : PartCounters) : MeasuredRun :=
  { s with
    broker := { s.broker with metrics := metrics }
    traffic := Function.update s.traffic name
      (Function.update (s.traffic name) p (s.traffic name p + delta)) }

def step (s : MeasuredRun) : MeasuredEvent → MeasuredRun
  | .produce name p n =>
      s.record (s.broker.metrics.recordProduceBatch p n) name p (.produced n)
  | .consume name p => s.record (s.broker.metrics.recordConsume p) name p .consumed
  | .create name numPartitions mode env =>
      let result := s.broker.createTopic name numPartitions mode env
      match result.1 with
      | .error _ => { s with broker := result.2 }
      | .ok _ =>
          { broker := result.2
            traffic := Function.update s.traffic name fun _ => 0
            created := name :: s.created }
  | .delete name env => { s with broker := (s.broker.deleteTopic name env).2 }
  | .collect order now => { s with broker := (s.broker.collect order now).2 }

/-- The registered topics with their partitions. -/
def live (s : MeasuredRun) : List (Bytes × Nat) := s.broker.partitions s.created

/-- A `Collect` reports of every partition what has been produced to it and not
consumed from it. -/
def Faithful (s : MeasuredRun) : Prop :=
  ∀ order now, (s.broker.collect order now).1.queueDepth =
    (s.broker.partitions order).map fun entry =>
      max 0 ((s.traffic entry.1 entry.2).produces - (s.traffic entry.1 entry.2).consumes)

/-- No two topics have traffic on the same partition id: an event is recorded for
a partition of a registered topic whose id no other one has, a topic is created
while those with its ids have no traffic there, and a topic with traffic is closed
when it is deleted. -/
def Alone (s : MeasuredRun) : MeasuredEvent → Prop
  | .produce name p _ => (name, p) ∈ s.live ∧ ∀ entry ∈ s.live, entry.2 = p → entry.1 = name
  | .consume name p => (name, p) ∈ s.live ∧ ∀ entry ∈ s.live, entry.2 = p → entry.1 = name
  | .create _ numPartitions _ _ => ∀ entry ∈ s.live, entry.2 < partitionCount numPartitions →
      s.traffic entry.1 entry.2 = 0
  | .delete name env => ((s.broker.topics name).all fun t => t.closes env) = true ∨
      ∀ entry ∈ s.live, entry.1 = name → s.traffic entry.1 entry.2 = 0
  | .collect _ _ => True

instance aloneDecidable (s : MeasuredRun) : ∀ e, Decidable (s.Alone e)
  | .produce name p _ => inferInstanceAs (Decidable
      ((name, p) ∈ s.live ∧ ∀ entry ∈ s.live, entry.2 = p → entry.1 = name))
  | .consume name p => inferInstanceAs (Decidable
      ((name, p) ∈ s.live ∧ ∀ entry ∈ s.live, entry.2 = p → entry.1 = name))
  | .create _ numPartitions _ _ => inferInstanceAs (Decidable
      (∀ entry ∈ s.live, entry.2 < partitionCount numPartitions → s.traffic entry.1 entry.2 = 0))
  | .delete name env => inferInstanceAs (Decidable
      (((s.broker.topics name).all fun t => t.closes env) = true ∨
        ∀ entry ∈ s.live, entry.1 = name → s.traffic entry.1 entry.2 = 0))
  | .collect _ _ => isTrue trivial

structure Inv (s : MeasuredRun) : Prop where
  registered : ∀ name t, s.broker.topics name = some t → name ∈ s.created
  counted : ∀ name p, s.broker.Has name p → s.broker.metrics.countersAt p = s.traffic name p
  unused : ∀ p, (∀ name, ¬s.broker.Has name p) → s.broker.metrics.countersAt p = 0
  shared : ∀ name name' p, s.broker.Has name p → s.broker.Has name' p → name ≠ name' →
    s.broker.metrics.countersAt p = 0

section Step

variable {s : MeasuredRun}

theorem Inv.mem_live (inv : Inv s) (name : Bytes) (p : Nat) :
    (name, p) ∈ s.live ↔ s.broker.Has name p := by
  rw [live, MeasuredBroker.mem_partitions]
  refine ⟨fun both => both.2, fun has => ⟨?_, has⟩⟩
  obtain ⟨t, there, -⟩ := has
  exact inv.registered name t there

theorem Inv.faithful (inv : Inv s) : Faithful s := by
  intro order now
  simp only [MeasuredBroker.collect, MetricsCollector.queueDepth_collect, List.map_map]
  apply List.map_congr_left
  rintro ⟨name, p⟩ member
  have has := ((MeasuredBroker.mem_partitions ..).mp member).2
  simp [MetricsCollector.read, MetricsCollector.Reading.depth, inv.counted name p has]

theorem inv_start (store : DiskBroker) (empty : ∀ name, store.broker.topics name = none)
    (now : Int) : Inv (start store now) := by
  have none : ∀ name p, ¬(start store now).broker.Has name p := by
    rintro name p ⟨t, there, -⟩
    rw [MeasuredBroker.topics, start, empty] at there
    cases there
  refine ⟨?_, ?_, ?_, ?_⟩
  · intro name t there
    rw [MeasuredBroker.topics, start, empty] at there
    cases there
  · exact fun name p has => absurd has (none name p)
  · exact fun p _ => rfl
  · exact fun name name' p has => absurd has (none name p)

theorem Inv.record (inv : Inv s) {metrics : MetricsCollector} {name : Bytes} {p : Nat}
    {delta : PartCounters}
    (counters : ∀ q, metrics.countersAt q =
      if q = p then s.broker.metrics.countersAt q + delta else s.broker.metrics.countersAt q)
    (here : (name, p) ∈ s.live) (alone : ∀ entry ∈ s.live, entry.2 = p → entry.1 = name) :
    Inv (s.record metrics name p delta) := by
  have own : ∀ name', s.broker.Has name' p → name' = name := fun name' has =>
    alone (name', p) ((inv.mem_live name' p).mpr has) rfl
  refine ⟨inv.registered, ?_, ?_, ?_⟩
  · intro name' q has
    have before := inv.counted name' q has
    simp only [MeasuredRun.record, counters]
    by_cases same : q = p
    · subst same
      obtain rfl := own name' has
      simp [before]
    · by_cases topic : name' = name
      · subst topic
        simp [same, before]
      · simp [same, topic, before]
  · intro q none
    have other : q ≠ p := by
      rintro rfl
      exact none name ((inv.mem_live name q).mp here)
    simpa only [MeasuredRun.record, counters, if_neg other] using inv.unused q none
  · intro name' name'' q has has' different
    have other : q ≠ p := by
      rintro rfl
      exact different ((own name' has).trans (own name'' has').symm)
    simpa only [MeasuredRun.record, counters, if_neg other] using
      inv.shared name' name'' q has has' different

theorem Inv.same_topics (inv : Inv s) {broker : MeasuredBroker}
    (topics : broker.topics = s.broker.topics)
    (counters : ∀ p, broker.metrics.countersAt p = s.broker.metrics.countersAt p) :
    Inv { s with broker := broker } := by
  have has : ∀ name p, broker.Has name p ↔ s.broker.Has name p := by
    intro name p
    rw [MeasuredBroker.Has, topics]
    rfl
  refine ⟨?_, ?_, ?_, ?_⟩
  · exact fun name t there => inv.registered name t (topics ▸ there)
  · exact fun name p there => (counters p).trans (inv.counted name p ((has name p).mp there))
  · exact fun p none => (counters p).trans (inv.unused p fun name => mt (has name p).mpr (none name))
  · exact fun name name' p there there' different => (counters p).trans
      (inv.shared name name' p ((has name p).mp there) ((has name' p).mp there') different)

theorem Inv.create (inv : Inv s) (name : Bytes) (numPartitions : Int) (mode : ScheduleMode)
    (env : CreateEnv) (alone : s.Alone (.create name numPartitions mode env)) :
    Inv (s.step (.create name numPartitions mode env)) := by
  rcases s.broker.store.createTopic_topics name numPartitions mode env with
    ⟨cause, failed, same⟩ | ⟨t, created, free, ids, topics⟩
  · simp only [step, MeasuredBroker.createTopic, failed]
    exact inv.same_topics same fun _ => rfl
  · simp only [step, MeasuredBroker.createTopic, created]
    -- the new topic has its ids, the other ones what they had
    have has : ∀ name' p, MeasuredBroker.Has
        { s.broker with store := (s.broker.store.createTopic name numPartitions mode env).2 }
          name' p ↔
        name' = name ∧ p < partitionCount numPartitions ∨ name' ≠ name ∧ s.broker.Has name' p := by
      intro name' p
      simp only [MeasuredBroker.Has, MeasuredBroker.topics, topics]
      by_cases here : name' = name
      · subst here
        simp [ids]
      · simp [here]
    have fresh : ∀ p < partitionCount numPartitions, s.broker.metrics.countersAt p = 0 := by
      intro p small
      by_cases used : ∃ name', s.broker.Has name' p
      · obtain ⟨name', other⟩ := used
        rw [inv.counted name' p other]
        exact alone (name', p) ((inv.mem_live name' p).mpr other) small
      · exact inv.unused p (not_exists.mp used)
    refine ⟨?_, ?_, ?_, ?_⟩
    · intro name' t' there
      by_cases here : name' = name
      · exact here ▸ List.mem_cons_self
      · simp only [MeasuredBroker.topics, topics, Function.update_of_ne here] at there
        exact List.mem_cons_of_mem _ (inv.registered name' t' there)
    · intro name' p there
      rcases (has name' p).mp there with ⟨rfl, small⟩ | ⟨other, before⟩
      · simpa using fresh p small
      · simpa [other] using inv.counted name' p before
    · intro p none
      apply inv.unused p
      intro name' before
      by_cases here : name' = name
      · obtain ⟨t', there, -⟩ := here ▸ before
        exact absurd (free.symm.trans there) (by simp)
      · exact none name' ((has name' p).mpr (.inr ⟨here, before⟩))
    · intro name' name'' p there there' different
      rcases (has name' p).mp there with ⟨-, small⟩ | ⟨-, before⟩
      · exact fresh p small
      · rcases (has name'' p).mp there' with ⟨-, small⟩ | ⟨-, before'⟩
        · exact fresh p small
        · exact inv.shared name' name'' p before before' different

theorem Inv.counters_delete (inv : Inv s) {name : Bytes} {env : DeleteEnv}
    (alone : s.Alone (.delete name env)) (p : Nat) :
    (s.broker.Has name p → (s.broker.deleteTopic name env).2.metrics.countersAt p = 0) ∧
      (¬s.broker.Has name p → (s.broker.deleteTopic name env).2.metrics.countersAt p =
        s.broker.metrics.countersAt p) := by
  simp only [MeasuredBroker.deleteTopic]
  cases there : s.broker.topics name with
  | none =>
    refine ⟨?_, fun _ => rfl⟩
    rintro ⟨t, there', -⟩
    rw [there] at there'
    cases there'
  | some t =>
    have ids : s.broker.Has name p ↔ p ∈ t.partIDs := by
      simp [MeasuredBroker.Has, there]
    by_cases closes : t.closes env = true
    · simp only [if_pos closes, MeasuredBroker.countersAt_foldl_remove, ids]
      exact ⟨fun member => if_pos member, fun outside => if_neg outside⟩
    · simp only [if_neg closes, implies_true, and_true]
      intro has
      rcases alone with closed | idle
      · rw [there] at closed
        exact absurd closed closes
      · rw [inv.counted name p has]
        exact idle (name, p) ((inv.mem_live name p).mpr has) rfl

theorem Inv.delete (inv : Inv s) {name : Bytes} {env : DeleteEnv}
    (alone : s.Alone (.delete name env)) : Inv (s.step (.delete name env)) := by
  have topics : (s.broker.deleteTopic name env).2.topics =
      Function.update s.broker.topics name none := s.broker.store.deleteTopic_topics name env
  have has : ∀ name' p, (s.broker.deleteTopic name env).2.Has name' p ↔
      name' ≠ name ∧ s.broker.Has name' p := by
    intro name' p
    simp only [MeasuredBroker.Has, topics]
    by_cases here : name' = name
    · subst here
      simp
    · simp [here]
  have counters := fun p => inv.counters_delete alone p
  -- what has counted nothing has counted nothing after the deletion
  have zero : ∀ p, s.broker.metrics.countersAt p = 0 →
      (s.broker.deleteTopic name env).2.metrics.countersAt p = 0 := by
    intro p before
    by_cases removed : s.broker.Has name p
    · exact (counters p).1 removed
    · exact ((counters p).2 removed).trans before
  refine ⟨?_, ?_, ?_, ?_⟩
  · intro name' t there
    have other : name' ≠ name := by
      rintro rfl
      simp [step, topics] at there
    simp only [step, topics, Function.update_of_ne other] at there
    exact inv.registered name' t there
  · intro name' p there
    obtain ⟨other, before⟩ := (has name' p).mp there
    have counted := inv.counted name' p before
    by_cases removed : s.broker.Has name p
    · have nothing := inv.shared name' name p before removed other
      exact (zero p nothing).trans (nothing.symm.trans counted)
    · exact ((counters p).2 removed).trans counted
  · intro p none
    by_cases removed : s.broker.Has name p
    · exact (counters p).1 removed
    · apply zero p
      apply inv.unused p
      intro name' before
      by_cases here : name' = name
      · exact removed (here ▸ before)
      · exact none name' ((has name' p).mpr ⟨here, before⟩)
  · intro name' name'' p there there' different
    exact zero p (inv.shared name' name'' p ((has name' p).mp there).2 ((has name'' p).mp there').2
      different)

theorem Inv.step (inv : Inv s) {e : MeasuredEvent} (alone : s.Alone e) : Inv (s.step e) := by
  cases e with
  | produce name p n => exact inv.record (fun _ => by simp) alone.1 alone.2
  | consume name p => exact inv.record (fun _ => by simp) alone.1 alone.2
  | create name numPartitions mode env => exact inv.create name numPartitions mode env alone
  | delete name env => exact inv.delete alone
  | collect order now => exact inv.same_topics rfl fun _ => rfl

end Step

/-- In every state of a run in which no two topics have traffic on one partition
id, `Collect` reports the depth of each partition. -/
theorem depths_faithful_of_alone (store : DiskBroker)
    (empty : ∀ name, store.broker.topics name = none) (now : Int) (events : List MeasuredEvent)
    (alone : Runs.Guarded step Alone (start store now) events) :
    ∀ s ∈ Runs.states step (start store now) events, Faithful s := by
  intro s member
  have keep : ∀ s e, Inv s → s.Alone e → Inv (s.step e) := fun s e inv alone => inv.step alone
  exact (Runs.invariant_states keep events (start store now) (inv_start store empty now) alone s
    member).faithful

def emptyStore : DiskBroker where
  dir := TopicSpec.sampleDir
  broker := Broker.new sampleLibrary defaultConfig none
  disk := { wal := fun _ => none, offsets := true }

/-- One topic after the other. -/
def oneAfterTheOther : List MeasuredEvent :=
  [.create [97] 1 .fifo { opens := fun _ => true }, .produce [97] 0 3, .consume [97] 0,
    .delete [97] TopicRun.works, .create [98] 2 .fifo { opens := fun _ => true }, .produce [98] 0 2,
    .produce [98] 1 7]

theorem depths_faithful_one_after_the_other :
    Runs.Guarded step Alone (start emptyStore 0) oneAfterTheOther ∧
    ∀ s ∈ Runs.states step (start emptyStore 0) oneAfterTheOther, Faithful s := by
  have alone : Runs.Guarded step Alone (start emptyStore 0) oneAfterTheOther := by decide +kernel
  exact ⟨alone, depths_faithful_of_alone emptyStore (fun _ => rfl) 0 oneAfterTheOther alone⟩

/-- Two topics with a partition 0 each, and messages for one of them. -/
def sideBySide : List MeasuredEvent :=
  [.create [97] 1 .fifo { opens := fun _ => true }, .create [98] 1 .fifo { opens := fun _ => true },
    .produce [97] 0 3]

/-- Nothing was ever produced to `b`, which is reported with the depth of `a`. -/
theorem shared_partition_id_misreported :
    let s := Runs.final step (start emptyStore 0) sideBySide
    s.broker.partitions [[97], [98]] = [([97], 0), ([98], 0)] ∧
    (s.broker.collect [[97], [98]] 1).1.queueDepth = [3, 3] ∧
    s.traffic [98] 0 = 0 ∧ ¬Faithful s := by
  have outcome : (Runs.final step (start emptyStore 0) sideBySide).broker.partitions
        [[97], [98]] = [([97], 0), ([98], 0)] ∧
      ((Runs.final step (start emptyStore 0) sideBySide).broker.collect [[97], [98]] 1).1.queueDepth =
        [3, 3] ∧
      (Runs.final step (start emptyStore 0) sideBySide).traffic [97] 0 = .produced 3 ∧
      (Runs.final step (start emptyStore 0) sideBySide).traffic [98] 0 = 0 := by decide +kernel
  obtain ⟨labels, depths, traffic, idle⟩ := outcome
  refine ⟨labels, depths, idle, fun faithful => ?_⟩
  have reported := faithful [[97], [98]] 1
  rw [depths, labels] at reported
  simp [traffic, idle] at reported

end MeasuredRun

end NyaQueue
