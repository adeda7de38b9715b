import NyaQueue.TopicFiles

/-!
# Deleting a topic

`DeleteTopic` takes the topic out of the maps before it closes the partitions and
removes the directory, and returns early when either fails.  What a failed
deletion leaves, and what a topic starts with that is created again after one
that went through.
-/

set_option autoImplicit false

namespace NyaQueue

open FilePath

theorem DataDir.partitionDir_injective (d : DataDir) (name : Bytes) {id id' : Nat}
    (same : d.partitionDir name id = d.partitionDir name id') : id = id' := by
  rw [d.partitionDir_eq, d.partitionDir_eq] at same
  have names := List.append_cancel_left same
  exact partitionName_injective (List.singleton_inj.mp names)

theorem Disk.write_logAt_ne (disk : Disk) {place other : Location} (log : Log)
    (different : other ≠ place) : (disk.write place log).logAt other = disk.logAt other := by
  unfold Disk.write Disk.logAt
  dsimp only
  rw [Function.update_of_ne different]

theorem Broker.createTopic_logs {b b' : Broker} {name : Bytes} {mode : ScheduleMode}
    {logs : List Log} (created : b.createTopic name mode logs = some b') :
    ∃ t, b'.topics name = some t ∧ t.partitions.map Partition.log = logs := by
  unfold Broker.createTopic at created
  cases there : b.topics name with
  | some t =>
    rw [there] at created
    cases created
  | none =>
    rw [there] at created
    obtain rfl := Option.some.inj created
    refine ⟨_, Function.update_self _ _ _, ?_⟩
    apply List.ext_getElem?
    intro i
    rw [List.getElem?_map, List.getElem?_mapIdx, Option.map_map]
    exact Option.map_id'

namespace DiskBroker

/-! ## Creating -/

section Open

variable (d : DataDir) (name : Bytes) (env : CreateEnv)

theorem openLogs_ok (left i : Nat) (disk : Disk) (logs found : List Log)
    (opened : (openLogs d name env left i disk logs).1 = .ok found) :
    found = logs ++ (List.range' i left).map fun id => disk.logAt (d.partitionDir name id) := by
  induction left generalizing i disk logs with
  | zero =>
    rw [List.range'_zero, List.map_nil, List.append_nil]
    exact (Except.ok.inj opened).symm
  | succ left ih =>
    unfold openLogs at opened
    by_cases opens : env.opens i
    · rw [if_pos opens] at opened
      have later := ih (i + 1) _ _ opened
      -- opening the directory of `i` leaves the others as they are
      have others : ∀ j ∈ List.range' (i + 1) left,
          (disk.write (d.partitionDir name i) (disk.logAt (d.partitionDir name i))).logAt
            (d.partitionDir name j) = disk.logAt (d.partitionDir name j) := by
        intro j member
        apply disk.write_logAt_ne
        intro same
        have equal := d.partitionDir_injective name same
        rw [List.mem_range'_1] at member
        omega
      rw [List.map_congr_left others] at later
      rw [later, List.range'_succ, List.map_cons, List.append_assoc]
      rfl
    · rw [if_neg opens] at opened
      cases opened

theorem openLogs_opens (all : ∀ i, env.opens i = true) (left i : Nat) (disk : Disk)
    (logs : List Log) : ∃ found, (openLogs d name env left i disk logs).1 = .ok found := by
  induction left generalizing i disk logs with
  | zero => exact ⟨logs, rfl⟩
  | succ left ih =>
    unfold openLogs
    rw [if_pos (all i)]
    exact ih (i + 1) _ _

end Open

variable (b : DiskBroker) (name : Bytes)

/-- A topic that is created has the logs of its directories, and the offset store
is as before. -/
theorem createTopic_ok {numPartitions : Int} {mode : ScheduleMode} {env : CreateEnv}
    (created : (b.createTopic name numPartitions mode env).1 = .ok ()) :
    (∃ t, (b.createTopic name numPartitions mode env).2.broker.topics name = some t ∧
      t.partitions.map Partition.log =
        (List.range (partitionCount numPartitions)).map fun id =>
          b.disk.logAt (b.dir.partitionDir name id)) ∧
    (b.createTopic name numPartitions mode env).2.broker.offsetStore = b.broker.offsetStore := by
  have logs := openLogs_ok b.dir name env (partitionCount numPartitions) 0 b.disk []
  unfold createTopic at created ⊢
  generalize openLogs b.dir name env (partitionCount numPartitions) 0 b.disk [] = opened
    at logs created ⊢
  obtain ⟨outcome, disk⟩ := opened
  cases outcome with
  | error cause => cases created
  | ok found =>
    have stored := logs found rfl
    rw [List.nil_append, ← List.range_eq_range'] at stored
    unfold register at created ⊢
    dsimp only at created ⊢
    cases registered : b.broker.createTopic name mode found with
    | none =>
      rw [registered] at created
      cases created
    | some broker =>
      rw [← stored]
      exact ⟨Broker.createTopic_logs registered, (Broker.createTopic_ok registered).2.1⟩

theorem createTopic_opens (free : b.broker.topics name = none) (numPartitions : Int)
    (mode : ScheduleMode) (env : CreateEnv) (all : ∀ i, env.opens i = true) :
    (b.createTopic name numPartitions mode env).1 = .ok () := by
  obtain ⟨found, opened⟩ := openLogs_opens b.dir name env all (partitionCount numPartitions) 0
    b.disk []
  unfold createTopic
  cases outcome : openLogs b.dir name env (partitionCount numPartitions) 0 b.disk [] with
  | mk result disk =>
    rw [outcome] at opened
    dsimp only at opened
    subst opened
    unfold register Broker.createTopic
    rw [free]

/-! ## Deleting -/

theorem deleteTopic_unregisters (env : DeleteEnv) :
    (b.deleteTopic name env).2.broker.topics name = none := by
  have gone : (b.unregister name).broker.topics name = none := Function.update_self _ _ _
  apply b.deleteTopic_cases name env (motive := fun r => r.2.broker.topics name = none)
  case missing => exact fun free => free
  case notClosed => exact gone
  case notRemoved => exact gone
  case deleted => exact gone

/-! ## Starting again -/

/-- Whatever topic is created under the name next starts with empty logs and
without committed offsets. -/
def Fresh : Prop :=
  ∀ numPartitions mode env, (b.createTopic name numPartitions mode env).1 = .ok () →
    (∀ t, (b.createTopic name numPartitions mode env).2.broker.topics name = some t →
      ∀ p ∈ t.partitions, p.log = Log.empty) ∧
    ∀ group id offset,
      (b.createTopic name numPartitions mode env).2.load group name id ≠ some (.ok offset)

/-- Nothing of the topic is on disk. -/
def NothingStored : Prop := ∀ id, b.disk.logAt (b.dir.partitionDir name id) = Log.empty

def NothingCommitted : Prop := ∀ group id offset, b.load group name id ≠ some (.ok offset)

variable {b name}

theorem fresh_iff (free : b.broker.topics name = none) :
    b.Fresh name ↔ b.NothingStored name ∧ b.NothingCommitted name := by
  constructor
  · intro fresh
    -- a topic with one partition more than `id` opens the log of `id`
    have create : ∀ id : Nat, _ := fun id =>
      b.createTopic_opens name free (id + 1) .fifo { opens := fun _ => true } fun _ => rfl
    refine ⟨?_, ?_⟩
    · intro id
      obtain ⟨⟨t, there, logs⟩, -⟩ := b.createTopic_ok name (create id)
      have empty := (fresh _ _ _ (create id)).1 t there
      have member : b.disk.logAt (b.dir.partitionDir name id) ∈ t.partitions.map Partition.log := by
        rw [logs, List.mem_map]
        refine ⟨id, ?_, rfl⟩
        rw [List.mem_range, partitionCount]
        split <;> omega
      obtain ⟨p, inside, same⟩ := List.mem_map.mp member
      rw [← same]
      exact empty p inside
    · intro group id offset
      have none := (fresh _ _ _ (create 0)).2 group id offset
      obtain ⟨-, store⟩ := b.createTopic_ok name (create 0)
      rw [load, store] at none
      exact none
  · rintro ⟨stored, committed⟩ numPartitions mode env created
    obtain ⟨⟨t, there, logs⟩, store⟩ := b.createTopic_ok name created
    refine ⟨?_, ?_⟩
    · intro t' there' p inside
      rw [there] at there'
      obtain rfl := Option.some.inj there'
      have member : p.log ∈ t.partitions.map Partition.log := List.mem_map_of_mem inside
      rw [logs, List.mem_map] at member
      obtain ⟨id, -, same⟩ := member
      rw [← same]
      exact stored id
    · intro group id offset
      rw [load, store]
      exact committed group id offset

theorem nothingCommitted_delete {t : Topic} (there : b.broker.topics name = some t)
    {env : DeleteEnv} (closes : t.closes env = true)
    (removes : (b.disk.removeAll b.dir (b.dir.topicPath name) env).1 = true) :
    (b.deleteTopic name env).2.NothingCommitted name := by
  intro group id offset
  rw [b.deleteTopic_succeeds name there closes removes]
  unfold load
  cases b.broker.offsetStore with
  | none =>
    intro impossible
    cases impossible
  | some store =>
    rw [Option.map_some, Option.map_some, OffsetStore.load,
      store.deleteTopic_lookup_starts (OffsetStore.bucketKey_starts name id group)]
    intro impossible
    cases impossible

theorem nothingStored_delete {t : Topic} (there : b.broker.topics name = some t)
    {env : DeleteEnv} (closes : t.closes env = true)
    (removes : (b.disk.removeAll b.dir (b.dir.topicPath name) env).1 = true) :
    (b.deleteTopic name env).2.NothingStored name ↔
      b.dir.topicPath name = [] → b.NothingStored name := by
  rw [b.deleteTopic_succeeds name there closes removes]
  unfold NothingStored
  dsimp only
  unfold Disk.removeAll at removes ⊢
  by_cases empty : b.dir.topicPath name = []
  · rw [if_pos empty]
    exact ⟨fun stored _ => stored, fun stored => stored empty⟩
  · rw [if_neg empty] at removes ⊢
    refine ⟨fun _ impossible => absurd impossible empty, fun _ id => ?_⟩
    by_cases isDot : b.dir.topicPath name = dot
    · rw [if_pos isDot] at removes
      cases removes
    · rw [if_neg isDot] at removes ⊢
      by_cases removed : env.removes = true
      · rw [if_pos removed]
        have inside : locate b.dir.cwd (b.dir.topicPath name) <+: b.dir.partitionDir name id := by
          rw [b.dir.partitionDir_eq]
          exact List.prefix_append _ _
        have gone : (b.disk.remove b.dir (locate b.dir.cwd (b.dir.topicPath name))
            fun _ => true).wal (b.dir.partitionDir name id) = none := if_pos ⟨inside, rfl⟩
        exact congrArg (fun log => Option.getD log Log.empty) gone
      · rw [if_neg removed] at removes
        cases removes

theorem removeAll_iff (disk : Disk) (d : DataDir) (path : Bytes) (env : DeleteEnv) :
    (disk.removeAll d path env).1 = true ↔ path = [] ∨ path ≠ dot ∧ env.removes = true := by
  unfold Disk.removeAll
  split_ifs with empty isDot removed
  · simp [empty]
  · simp [isDot, show dot ≠ [] by decide]
  · simp [isDot, removed]
  · simp [empty, removed]

variable (b name)

/-- An error leaves the topic registered, for the deletion to be tried again, and
a success leaves nothing that a topic created again could meet. -/
structure AllOrRetryable (env : DeleteEnv) : Prop where
  retryable : ∀ cause, (b.deleteTopic name env).1 = .error cause → cause ≠ .notFound name →
    ((b.deleteTopic name env).2.broker.topics name).isSome
  fresh : (b.deleteTopic name env).1 = .ok () → (b.deleteTopic name env).2.Fresh name

/-- If the topic is registered, its partitions close and its tree is removed; for
the empty path, which `RemoveAll` passes over, nothing is stored. -/
def Unhindered (env : DeleteEnv) : Prop :=
  ∀ t, b.broker.topics name = some t → t.closes env = true ∧
    (b.dir.topicPath name = [] ∧ b.NothingStored name ∨
      b.dir.topicPath name ≠ [] ∧ b.dir.topicPath name ≠ dot ∧ env.removes = true)

/-- A deletion is all or retryable exactly when it meets no failure; after one
that fails, every later one is told that there is no such topic. -/
theorem delete_all_or_retryable_iff (env : DeleteEnv) :
    (b.AllOrRetryable name env ↔ b.Unhindered name env) ∧
    ∀ cause, (b.deleteTopic name env).1 = .error cause →
      ∀ later, ((b.deleteTopic name env).2.deleteTopic name later).1 =
        .error (.notFound name) := by
  have unregistered := b.deleteTopic_unregisters name env
  refine ⟨⟨?_, ?_⟩, ?_⟩
  · intro holds t there
    by_cases closes : t.closes env = true
    · refine ⟨closes, ?_⟩
      by_cases removes : (b.disk.removeAll b.dir (b.dir.topicPath name) env).1 = true
      · have ok : (b.deleteTopic name env).1 = .ok () := by
          rw [b.deleteTopic_succeeds name there closes removes]
        have stored := ((fresh_iff unregistered).mp (holds.fresh ok)).1
        have passed := (nothingStored_delete there closes removes).mp stored
        by_cases empty : b.dir.topicPath name = []
        · exact .inl ⟨empty, passed empty⟩
        · exact .inr ⟨empty, ((removeAll_iff ..).mp removes).resolve_left empty⟩
      · have failed := b.deleteTopic_not_removed name there closes removes
        have registered := holds.retryable (.removeDir name) (by rw [failed]) (by simp)
        rw [unregistered] at registered
        cases registered
    · have failed := b.deleteTopic_not_closed name there closes
      have registered := holds.retryable (.close name) (by rw [failed]) (by simp)
      rw [unregistered] at registered
      cases registered
  · intro unhindered
    cases there : b.broker.topics name with
    | none =>
        have missing := b.deleteTopic_missing name there env
        refine ⟨?_, ?_⟩
        · intro cause failed other
          rw [missing] at failed
          exact absurd (Except.error.inj failed).symm other
        · intro ok
          rw [missing] at ok
          cases ok
    | some t =>
        obtain ⟨closes, tree⟩ := unhindered t there
        have removes : (b.disk.removeAll b.dir (b.dir.topicPath name) env).1 = true := by
          rw [removeAll_iff]
          rcases tree with ⟨empty, -⟩ | ⟨-, removed⟩
          · exact .inl empty
          · exact .inr removed
        have stored : (b.deleteTopic name env).2.NothingStored name := by
          rw [nothingStored_delete there closes removes]
          rcases tree with ⟨-, nothing⟩ | ⟨nonempty, -⟩
          · exact fun _ => nothing
          · exact fun empty => absurd empty nonempty
        refine ⟨?_, ?_⟩
        · intro cause failed _
          rw [b.deleteTopic_succeeds name there closes removes] at failed
          cases failed
        · intro _
          exact (fresh_iff unregistered).mpr ⟨stored, nothingCommitted_delete there closes removes⟩
  · intro cause _ later
    rw [deleteTopic_missing _ name unregistered]

/-- A topic `t` with one message, and an offset committed for it. -/
def committedTopic : DiskBroker :=
  let store := (OffsetStore.empty 1).commit [103] [116] 0 1 0 true
  let b : DiskBroker :=
    { dir := TopicSpec.sampleDir
      broker := Broker.new sampleLibrary defaultConfig (some store.2)
      disk := { wal := fun _ => none, offsets := true } }
  let b := (b.createTopic [116] 1 .fifo { opens := fun _ => true }).2
  b.append [116] 0 (.plain [sampleMessage 5 7 118] (steadyEnv 9))

/-- The partition does not close: the deletion fails, the next one is told that
there is no such topic, and the topic created again has the old message and the
old offset. -/
theorem failed_delete_resurrects :
    let failing : DeleteEnv :=
      { closes := fun _ => false, removes := true, gone := fun _ => true, flushed := true }
    let first := committedTopic.deleteTopic [116] failing
    let again := first.2.deleteTopic [116] { failing with closes := fun _ => true }
    let created := again.2.createTopic [116] 1 .fifo { opens := fun _ => true }
    first.1 = .error (.close [116]) ∧ (first.2.broker.topics [116]).isNone ∧
    again.1 = .error (.notFound [116]) ∧ created.1 = .ok () ∧
    (created.2.broker.topics [116]).map (fun t => t.partitions.map fun p => p.log.lastIndex) =
      some [1] ∧
    created.2.load [103] [116] 0 = some (.ok 1) ∧
    ¬ committedTopic.AllOrRetryable [116] failing := by
  intro failing first again created
  have outcome : first.1 = .error (.close [116]) ∧ (first.2.broker.topics [116]).isNone ∧
      again.1 = .error (.notFound [116]) ∧ created.1 = .ok () ∧
      (created.2.broker.topics [116]).map (fun t => t.partitions.map fun p => p.log.lastIndex) =
        some [1] ∧
      created.2.load [103] [116] 0 = some (.ok 1) := by decide +kernel
  obtain ⟨failed, unregistered, notFound, recreated, log, offset⟩ := outcome
  refine ⟨failed, unregistered, notFound, recreated, log, offset, ?_⟩
  intro holds
  have registered := holds.retryable _ failed (by decide)
  rw [Option.isNone_iff_eq_none] at unregistered
  rw [show (committedTopic.deleteTopic [116] failing).2.broker.topics [116] = none
    from unregistered] at registered
  cases registered

end DiskBroker

end NyaQueue
