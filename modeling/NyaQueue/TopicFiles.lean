import NyaQueue.Consume
import NyaQueue.Lib.FilePath
import NyaQueue.OffsetMap

/-!
# The files of the topics

Where `pkg/broker` keeps its data: `NewPartition` opens a log in the directory
`dataDir/topic/partition-id`, `DeleteTopic` removes the tree `dataDir/topic`, and
the offset store lives in `dataDir/offsets.badger`.  Topic names are not checked,
and `filepath.Join` cleans what it joins.
-/

set_option autoImplicit false

namespace NyaQueue

open FilePath

/-- The data directory of a broker, and where its process works. -/
structure DataDir where
  cwd : Location
  path : Bytes

/-- `fmt.Sprintf("partition-%d", id)` -/
def partitionName (id : Nat) : Name :=
  [112, 97, 114, 116, 105, 116, 105, 111, 110, 45] ++ Decimal.ofInt id

/-- `offsets.badger` -/
def offsetsName : Name := [111, 102, 102, 115, 101, 116, 115, 46, 98, 97, 100, 103, 101, 114]

/-- The number of partitions that `NewTopic` opens. -/
def partitionCount (numPartitions : Int) : Nat :=
  if numPartitions ≤ 0 then 4 else numPartitions.toNat

namespace DataDir

def root (d : DataDir) : Location := locate d.cwd d.path

def topicPath (d : DataDir) (topic : Bytes) : Bytes := join [d.path, topic]

/-- The tree that `DeleteTopic` removes. -/
def topicTree (d : DataDir) (topic : Bytes) : Location := locate d.cwd (d.topicPath topic)

def partitionDir (d : DataDir) (topic : Bytes) (id : Nat) : Location :=
  locate d.cwd (join [d.path, topic, partitionName id])

def offsetsDir (d : DataDir) : Location := locate d.cwd (join [d.path, offsetsName])

end DataDir

/-! ## Places -/

theorem partitionName_plain (id : Nat) : Plain (partitionName id) where
  nonempty := by simp [partitionName]
  not_dot := by simp [partitionName, dot]
  not_dotDot := by simp [partitionName, dotDot]
  no_slash := by
    intro member
    rcases List.mem_append.mp member with word | number
    · revert word
      decide
    · exact Decimal.ofInt_no_slash id number

theorem offsetsName_plain : Plain offsetsName :=
  ⟨by decide, by decide, by decide, by decide⟩

theorem partitionName_injective {id id' : Nat} (same : partitionName id = partitionName id') :
    id = id' := by
  have numbers := List.append_cancel_left same
  exact Int.ofNat_inj.mp (Decimal.ofInt_injective numbers)

theorem partitionCount_pos (numPartitions : Int) : 0 < partitionCount numPartitions := by
  unfold partitionCount
  split <;> omega

namespace DataDir

variable (d : DataDir)

theorem locate_join_path : locate d.cwd (join [d.path]) = d.root := by
  by_cases empty : d.path = []
  · rw [root, empty]
    rfl
  · have alone : [slash].intercalate [d.path] = d.path := by simp [List.intercalate]
    rw [join_cons empty, alone, locate_clean, root]

theorem partitionDir_eq (topic : Bytes) (id : Nat) :
    d.partitionDir topic id = d.topicTree topic ++ [partitionName id] :=
  locate_join_plain d.cwd [d.path, topic] (partitionName_plain id)

theorem offsetsDir_eq : d.offsetsDir = d.root ++ [offsetsName] := by
  rw [← locate_join_path]
  exact locate_join_plain d.cwd [d.path] offsetsName_plain

theorem topicTree_plain {topic : Bytes} (plain : Plain topic) :
    d.topicTree topic = d.root ++ [topic] := by
  rw [← locate_join_path]
  exact locate_join_plain d.cwd [d.path] plain

end DataDir

/-! ## The broker and its disk -/

/-- The logs by directory, and whether the offset database is in its own. -/
structure Disk where
  wal : Location → Option Log
  offsets : Bool

structure DiskBroker where
  dir : DataDir
  broker : Broker
  disk : Disk

inductive TopicError where
  /-- create topic %q: create partition %d for topic %q -/
  | createPartition (name : Bytes) (id : Nat)
  /-- create topic %q: topic already exists -/
  | alreadyExists (name : Bytes)
  /-- delete topic %q: topic not found -/
  | notFound (name : Bytes)
  /-- close topic %q -/
  | close (name : Bytes)
  /-- remove topic data dir %q -/
  | removeDir (name : Bytes)
  deriving DecidableEq

/-- What a `CreateTopic` meets: which logs can be opened. -/
structure CreateEnv where
  opens : Nat → Bool

/-- What a `DeleteTopic` meets: which partitions close, whether the tree can be
removed and what is gone if it cannot, and whether the offset database takes the
deletions. -/
structure DeleteEnv where
  closes : Nat → Bool
  removes : Bool
  gone : Location → Bool
  flushed : Bool

/-- The log that a directory holds, or a new one. -/
def Disk.logAt (disk : Disk) (place : Location) : Log := (disk.wal place).getD Log.empty

/-- A directory holds a log. -/
def Disk.write (disk : Disk) (place : Location) (log : Log) : Disk :=
  { disk with wal := Function.update disk.wal place (some log) }

/-- Everything in a tree that `which` names is removed. -/
def Disk.remove (disk : Disk) (d : DataDir) (tree : Location) (which : Location → Bool) : Disk where
  wal place := if tree <+: place ∧ which place then none else disk.wal place
  offsets := disk.offsets && !decide (tree <+: d.offsetsDir ∧ which d.offsetsDir)

/-- `os.RemoveAll`: nothing to do for an empty path, and an error for one that
ends in a dot, which a cleaned path does only if it is one. -/
def Disk.removeAll (disk : Disk) (d : DataDir) (path : Bytes) (env : DeleteEnv) : Bool × Disk :=
  if path = [] then (true, disk)
  else if path = dot then (false, disk)
  else if env.removes then (true, disk.remove d (locate d.cwd path) fun _ => true)
  else (false, disk.remove d (locate d.cwd path) env.gone)

/-- `Close` of a topic: no partition fails. -/
def Topic.closes (t : Topic) (env : DeleteEnv) : Bool :=
  (List.range t.partitions.length).all env.closes

namespace DiskBroker

/-- The loop of `NewTopic`. -/
def openLogs (d : DataDir) (name : Bytes) (env : CreateEnv) :
    Nat → Nat → Disk → List Log → Except TopicError (List Log) × Disk
  | 0, _, disk, logs => (.ok logs, disk)
  | left + 1, i, disk, logs =>
      if env.opens i then
        let log := disk.logAt (d.partitionDir name i)
        openLogs d name env left (i + 1) (disk.write (d.partitionDir name i) log) (logs ++ [log])
      else (.error (.createPartition name i), disk)

/-- `CreateTopic` after `NewTopic`. -/
def register (b : DiskBroker) (name : Bytes) (mode : ScheduleMode) :
    Except TopicError (List Log) × Disk → Except TopicError Unit × DiskBroker
  | (.error cause, disk) => (.error cause, { b with disk := disk })
  | (.ok logs, disk) =>
      match b.broker.createTopic name mode logs with
      | none => (.error (.alreadyExists name), { b with disk := disk })
      | some broker => (.ok (), { b with broker := broker, disk := disk })

def createTopic (b : DiskBroker) (name : Bytes) (numPartitions : Int) (mode : ScheduleMode)
    (env : CreateEnv) : Except TopicError Unit × DiskBroker :=
  b.register name mode (openLogs b.dir name env (partitionCount numPartitions) 0 b.disk [])

/-- The topic is taken out of the two maps. -/
def unregister (b : DiskBroker) (name : Bytes) : DiskBroker :=
  { b with
    broker := { b.broker with
      topics := Function.update b.broker.topics name none
      schedulers := Function.update b.broker.schedulers name none } }

/-- `DeleteTopic` after the topic is out of the maps. -/
def cleanUp (b : DiskBroker) (name : Bytes) (t : Topic) (env : DeleteEnv) :
    Except TopicError Unit × DiskBroker :=
  if t.closes env then
    let removal := b.disk.removeAll b.dir (b.dir.topicPath name) env
    if removal.1 then
      let store := b.broker.offsetStore.map fun store => store.deleteTopic name env.flushed
      (.ok (), { b with
        disk := removal.2
        broker := { b.broker with offsetStore := store } })
    else (.error (.removeDir name), { b with disk := removal.2 })
  else (.error (.close name), b)

def deleteTopic (b : DiskBroker) (name : Bytes) (env : DeleteEnv) :
    Except TopicError Unit × DiskBroker :=
  match b.broker.topics name with
  | none => (.error (.notFound name), b)
  | some t => (b.unregister name).cleanUp name t env

/-- `Load` of the offset store, if the broker has one. -/
def load (b : DiskBroker) (group topic : Bytes) (partition : Int) :
    Option (Except StoreError Int64) :=
  b.broker.offsetStore.map fun store => store.load group topic partition

/-- An append to a partition of a topic. -/
def append (b : DiskBroker) (name : Bytes) (id : Nat) (call : AppendCall) : DiskBroker :=
  match b.broker.topics name with
  | none => b
  | some t =>
      match t.partition id with
      | .error _ => b
      | .ok p =>
          let q := (call.run p).2
          { b with
            broker := b.broker.setTopic name (t.setPartition id q)
            disk := b.disk.write (b.dir.partitionDir name id) q.log }

end DiskBroker

/-! ## Isolation -/

/-- A topic as it is asked for: its name and its number of partitions. -/
structure TopicSpec where
  name : Bytes
  numPartitions : Int

namespace TopicSpec

def tree (t : TopicSpec) (d : DataDir) : Location := d.topicTree t.name

def dirs (t : TopicSpec) (d : DataDir) : List Location :=
  (List.range (partitionCount t.numPartitions)).map (d.partitionDir t.name)

/-- The tree of `t` holds no partition of `other`, neither the data directory nor
the offset store. -/
structure KeepsClear (d : DataDir) (t other : TopicSpec) : Prop where
  partitions : ∀ place ∈ other.dirs d, ¬ t.tree d <+: place
  root : ¬ t.tree d <+: d.root
  offsets : ¬ t.tree d <+: d.offsetsDir

/-- From `b` to `b'` the topic keeps its logs and its committed offsets, and the
offset database stays in its directory. -/
structure Intact (t : TopicSpec) (b b' : DiskBroker) : Prop where
  logs : ∀ place ∈ t.dirs b.dir, b'.disk.wal place = b.disk.wal place
  database : b'.disk.offsets = b.disk.offsets
  offsets : ∀ group id, b'.load group t.name id = b.load group t.name id

/-- Deleting `t` or appending to it leaves `other` intact. -/
def LeavesIntact (d : DataDir) (t other : TopicSpec) : Prop :=
  ∀ b : DiskBroker, b.dir = d →
    (∀ env, Intact other b (b.deleteTopic t.name env).2) ∧
      ∀ id call, Intact other b (b.append t.name id call)

/-- Two topics are isolated. -/
def Isolated (d : DataDir) (t t' : TopicSpec) : Prop :=
  (KeepsClear d t t' ∧ LeavesIntact d t t') ∧ KeepsClear d t' t ∧ LeavesIntact d t' t

/-- The name of `t` does not resolve to the data directory or above it, to the
offset store, to the directory of `other` or above it, or to a partition of it. -/
structure Apart (d : DataDir) (t other : TopicSpec) : Prop where
  root : ¬ t.tree d <+: d.root
  store : t.tree d ≠ d.root ++ [offsetsName]
  topic : ¬ t.tree d <+: other.tree d
  partition : ∀ id < partitionCount other.numPartitions,
    t.tree d ≠ other.tree d ++ [partitionName id]

theorem mem_dirs {t : TopicSpec} {d : DataDir} {place : Location} :
    place ∈ t.dirs d ↔
      ∃ id < partitionCount t.numPartitions, place = t.tree d ++ [partitionName id] := by
  simp only [dirs, List.mem_map, List.mem_range, d.partitionDir_eq, tree, eq_comm]

theorem keepsClear_iff (d : DataDir) (t other : TopicSpec) :
    KeepsClear d t other ↔ Apart d t other := by
  constructor
  · intro clear
    have outside : ∀ id < partitionCount other.numPartitions,
        ¬ t.tree d <+: other.tree d ++ [partitionName id] :=
      fun id small => clear.partitions _ (mem_dirs.mpr ⟨id, small, rfl⟩)
    have store := clear.offsets
    rw [d.offsetsDir_eq, List.prefix_concat_iff, not_or] at store
    refine ⟨clear.root, store.1, ?_, ?_⟩
    · intro above
      exact outside 0 (partitionCount_pos _) (List.prefix_concat_iff.mpr (.inr above))
    · intro id small same
      exact outside id small (List.prefix_concat_iff.mpr (.inl same))
  · intro apart
    refine ⟨?_, apart.root, ?_⟩
    · intro place member inside
      obtain ⟨id, small, rfl⟩ := mem_dirs.mp member
      rcases List.prefix_concat_iff.mp inside with same | above
      · exact apart.partition id small same
      · exact apart.topic above
    · rw [d.offsetsDir_eq, List.prefix_concat_iff, not_or]
      exact ⟨apart.store, apart.root⟩

end TopicSpec

/-! ## What a deletion and an append leave alone -/

variable (disk : Disk) (d : DataDir)

theorem Disk.remove_wal {tree place : Location} (outside : ¬ tree <+: place)
    (which : Location → Bool) :
    (disk.remove d tree which).wal place = disk.wal place :=
  if_neg fun inside => outside inside.1

theorem Disk.remove_offsets {tree : Location} (outside : ¬ tree <+: d.offsetsDir)
    (which : Location → Bool) :
    (disk.remove d tree which).offsets = disk.offsets := by
  simp [Disk.remove, outside]

theorem Disk.removeAll_eq (path : Bytes) (env : DeleteEnv) :
    (disk.removeAll d path env).2 = disk ∨
      ∃ which, (disk.removeAll d path env).2 = disk.remove d (locate d.cwd path) which := by
  unfold Disk.removeAll
  split_ifs
  · exact .inl rfl
  · exact .inl rfl
  · exact .inr ⟨_, rfl⟩
  · exact .inr ⟨_, rfl⟩

namespace DiskBroker

variable (b : DiskBroker) (name : Bytes)

theorem deleteTopic_missing (free : b.broker.topics name = none) (env : DeleteEnv) :
    b.deleteTopic name env = (.error (.notFound name), b) := by
  unfold deleteTopic
  rw [free]

variable {t : Topic} {env : DeleteEnv}

theorem deleteTopic_registered (there : b.broker.topics name = some t) (env : DeleteEnv) :
    b.deleteTopic name env = (b.unregister name).cleanUp name t env := by
  unfold deleteTopic
  rw [there]

theorem deleteTopic_not_closed (there : b.broker.topics name = some t)
    (fails : t.closes env ≠ true) :
    b.deleteTopic name env = (.error (.close name), b.unregister name) := by
  rw [b.deleteTopic_registered name there]
  exact if_neg fails

theorem deleteTopic_not_removed (there : b.broker.topics name = some t)
    (closes : t.closes env = true)
    (fails : (b.disk.removeAll b.dir (b.dir.topicPath name) env).1 ≠ true) :
    b.deleteTopic name env = (.error (.removeDir name), { b.unregister name with
      disk := (b.disk.removeAll b.dir (b.dir.topicPath name) env).2 }) := by
  rw [b.deleteTopic_registered name there, cleanUp, if_pos closes]
  exact if_neg fails

theorem deleteTopic_succeeds (there : b.broker.topics name = some t) (closes : t.closes env = true)
    (removes : (b.disk.removeAll b.dir (b.dir.topicPath name) env).1 = true) :
    b.deleteTopic name env = (.ok (), { b.unregister name with
      disk := (b.disk.removeAll b.dir (b.dir.topicPath name) env).2
      broker := { (b.unregister name).broker with
        offsetStore := b.broker.offsetStore.map fun store =>
          store.deleteTopic name env.flushed } }) := by
  rw [b.deleteTopic_registered name there, cleanUp, if_pos closes]
  exact if_pos removes

variable (env : DeleteEnv)

theorem deleteTopic_cases {motive : Except TopicError Unit × DiskBroker → Prop}
    (missing : b.broker.topics name = none → motive (.error (.notFound name), b))
    (notClosed : motive (.error (.close name), b.unregister name))
    (notRemoved : motive (.error (.removeDir name), { b.unregister name with
      disk := (b.disk.removeAll b.dir (b.dir.topicPath name) env).2 }))
    (deleted : motive (.ok (), { b.unregister name with
      disk := (b.disk.removeAll b.dir (b.dir.topicPath name) env).2
      broker := { (b.unregister name).broker with
        offsetStore := b.broker.offsetStore.map fun store =>
          store.deleteTopic name env.flushed } })) :
    motive (b.deleteTopic name env) := by
  cases there : b.broker.topics name with
  | none =>
    rw [b.deleteTopic_missing name there]
    exact missing there
  | some t =>
    by_cases closes : t.closes env = true
    · by_cases removes : (b.disk.removeAll b.dir (b.dir.topicPath name) env).1 = true
      · rw [b.deleteTopic_succeeds name there closes removes]
        exact deleted
      · rw [b.deleteTopic_not_removed name there closes removes]
        exact notRemoved
    · rw [b.deleteTopic_not_closed name there closes]
      exact notClosed

theorem deleteTopic_disk :
    (b.deleteTopic name env).2.disk = b.disk ∨
      ∃ which, (b.deleteTopic name env).2.disk =
        b.disk.remove b.dir (b.dir.topicTree name) which := by
  have removal := b.disk.removeAll_eq b.dir (b.dir.topicPath name) env
  apply b.deleteTopic_cases name env
    (motive := fun r => r.2.disk = b.disk ∨
      ∃ which, r.2.disk = b.disk.remove b.dir (b.dir.topicTree name) which)
  case missing => exact fun _ => .inl rfl
  case notClosed => exact .inl rfl
  case notRemoved => exact removal
  case deleted => exact removal

theorem deleteTopic_offsetStore :
    (b.deleteTopic name env).2.broker.offsetStore = b.broker.offsetStore ∨
      (b.deleteTopic name env).2.broker.offsetStore =
        b.broker.offsetStore.map fun store => store.deleteTopic name env.flushed := by
  apply b.deleteTopic_cases name env
    (motive := fun r => r.2.broker.offsetStore = b.broker.offsetStore ∨
      r.2.broker.offsetStore =
        b.broker.offsetStore.map fun store => store.deleteTopic name env.flushed)
  case missing => exact fun _ => .inl rfl
  case notClosed => exact .inl rfl
  case notRemoved => exact .inl rfl
  case deleted => exact .inr rfl

theorem append_wal (id : Nat) (call : AppendCall) {place : Location}
    (other : place ≠ b.dir.partitionDir name id) :
    (b.append name id call).disk.wal place = b.disk.wal place := by
  unfold append
  cases b.broker.topics name with
  | none => rfl
  | some t =>
    dsimp only
    cases t.partition id with
    | error _ => rfl
    | ok p => exact Function.update_of_ne other _ _

theorem append_offsets (id : Nat) (call : AppendCall) :
    (b.append name id call).disk.offsets = b.disk.offsets ∧
      (b.append name id call).broker.offsetStore = b.broker.offsetStore := by
  unfold append
  cases b.broker.topics name with
  | none => exact ⟨rfl, rfl⟩
  | some t =>
    dsimp only
    cases t.partition id with
    | error _ => exact ⟨rfl, rfl⟩
    | ok p => exact ⟨rfl, rfl⟩

theorem deleteTopic_load {group topic : Bytes} {id : Int}
    (other : ¬ (name ++ [47]) <+: bucketKey topic id group) :
    (b.deleteTopic name env).2.load group topic id = b.load group topic id := by
  unfold load
  rcases b.deleteTopic_offsetStore name env with same | deleted
  · rw [same]
  · rw [deleted, Option.map_map]
    congr 1
    funext store
    rw [Function.comp_apply, OffsetStore.load, OffsetStore.load,
      store.deleteTopic_lookup_other other]

end DiskBroker

namespace TopicSpec

variable {d : DataDir} {t t' : TopicSpec}

theorem Apart.names_ne (apart : Apart d t t') : t.name ≠ t'.name := by
  intro same
  apply apart.topic
  rw [tree, tree, same]

theorem Apart.leavesIntact (apart : Apart d t t') (separate : Separate {t.name, t'.name}) :
    LeavesIntact d t t' := by
  rintro b rfl
  have clear := (keepsClear_iff b.dir t t').mpr apart
  constructor
  · intro env
    refine ⟨?_, ?_, ?_⟩
    · intro place member
      rcases b.deleteTopic_disk t.name env with same | ⟨which, removed⟩
      · rw [same]
      · rw [removed]
        exact b.disk.remove_wal b.dir (clear.partitions place member) which
    · rcases b.deleteTopic_disk t.name env with same | ⟨which, removed⟩
      · rw [same]
      · rw [removed]
        exact b.disk.remove_offsets b.dir clear.offsets which
    · intro group id
      apply b.deleteTopic_load
      intro starts
      exact apart.names_ne (OffsetStore.topic_of_key separate (.inl rfl) (.inr rfl) starts)
  · intro id call
    refine ⟨?_, (b.append_offsets t.name id call).1, ?_⟩
    · intro place member
      apply b.append_wal
      rintro rfl
      obtain ⟨id', _, same⟩ := mem_dirs.mp member
      rw [b.dir.partitionDir_eq] at same
      have trees := List.append_inj_left' same rfl
      apply apart.topic
      rw [← trees]
      exact List.prefix_rfl
    · intro group id'
      rw [DiskBroker.load, (b.append_offsets t.name id call).2, DiskBroker.load]

/-- A broker on an empty disk that holds the topic `name`, without partitions, and
an offset committed for the topic `other`. -/
def oneOffset (d : DataDir) (name other : Bytes) : DiskBroker where
  dir := d
  broker :=
    { Broker.new sampleLibrary defaultConfig
        (some ((OffsetStore.empty 1).commit [] other 0 0 0 true).2) with
      topics := Function.update (fun _ => none) name (some { name := name, partitions := [] }) }
  disk := { wal := fun _ => none, offsets := true }

theorem oneOffset_load (d : DataDir) (name other : Bytes) :
    (oneOffset d name other).load [] other 0 = some (.ok 0) := by
  have stored : ((∅ : AList fun _ : Bytes => Int64).insert (bucketKey other 0 []) 0).lookup
      (bucketKey other 0 []) = some 0 := AList.lookup_insert _
  have load : ∀ s : OffsetStore, s.cache.lookup (bucketKey other 0 []) = some 0 →
      s.load [] other 0 = .ok 0 := by
    intro s found
    rw [OffsetStore.load, found]
  exact congrArg some (load _ stored)

theorem not_starts_of_leavesIntact (root : ¬ t.tree d <+: d.root) (intact : LeavesIntact d t t') :
    ¬ (t.name ++ [47]) <+: t'.name := by
  intro starts
  have notDot : d.topicPath t.name ≠ dot := by
    intro isDot
    apply root
    have here := cwd_prefix_of_join d.cwd isDot
    have place : t.tree d = d.cwd := by
      rw [tree, DataDir.topicTree, isDot, locate, if_neg (by decide),
        elements_of_no_slash (by decide), walk_skip d.cwd (.inr rfl)]
    rw [place]
    exact here
  let env : DeleteEnv :=
    { closes := fun _ => true, removes := true, gone := fun _ => true, flushed := true }
  have there : (oneOffset d t.name t'.name).broker.topics t.name =
      some { name := t.name, partitions := [] } := by simp [oneOffset]
  have removes : ((oneOffset d t.name t'.name).disk.removeAll d (d.topicPath t.name) env).1 =
      true := by
    unfold Disk.removeAll
    by_cases empty : d.topicPath t.name = []
    · rw [if_pos empty]
    · rw [if_neg empty, if_neg notDot]
      rfl
  have same := ((intact (oneOffset d t.name t'.name) rfl).1 env).offsets [] 0
  have key : (t.name ++ [47]) <+: bucketKey t'.name 0 [] := starts.trans ⟨_, rfl⟩
  rw [oneOffset_load, DiskBroker.deleteTopic_succeeds _ t.name there rfl removes] at same
  simp [DiskBroker.load, oneOffset, Broker.new, OffsetStore.load,
    OffsetStore.deleteTopic_lookup_starts _ key] at same

theorem Isolated.separate (apart : Apart d t t') (apart' : Apart d t' t)
    (isolated : Isolated d t t') : Separate {t.name, t'.name} := by
  have itself : ∀ name : Bytes, ¬ (name ++ [47]) <+: name := by
    intro name inside
    have longer := inside.length_le
    rw [List.length_append, List.length_singleton] at longer
    omega
  rintro topic (rfl | rfl) other (rfl | rfl)
  · exact itself _
  · exact not_starts_of_leavesIntact apart.root isolated.1.2
  · exact not_starts_of_leavesIntact apart'.root isolated.2.2
  · exact itself _

/-! ## Plain names -/

theorem apart_of_plain (plain : Plain t.name) (plain' : Plain t'.name)
    (different : t.name ≠ t'.name) (notStore : t.name ≠ offsetsName) (d : DataDir) :
    Apart d t t' := by
  have here : t.tree d = d.root ++ [t.name] := d.topicTree_plain plain
  have there : t'.tree d = d.root ++ [t'.name] := d.topicTree_plain plain'
  refine ⟨?_, ?_, ?_, ?_⟩
  · intro inside
    have longer := inside.length_le
    rw [here, List.length_append, List.length_singleton] at longer
    omega
  · intro same
    rw [here] at same
    exact notStore (List.singleton_inj.mp (List.append_cancel_left same))
  · intro inside
    rw [here, there, List.prefix_append_right_inj] at inside
    have same := inside.eq_of_length rfl
    exact different (List.singleton_inj.mp same)
  · intro id _ same
    have lengths := congrArg List.length same
    rw [here, there] at lengths
    simp at lengths

theorem separate_of_plain (plain : Plain t.name) (plain' : Plain t'.name) :
    Separate {t.name, t'.name} := by
  have plains : ∀ name ∈ ({t.name, t'.name} : Set Bytes), slash ∉ name := by
    rintro name (rfl | rfl)
    · exact plain.no_slash
    · exact plain'.no_slash
  intro topic _ other member starts
  exact plains other member (starts.subset (List.mem_append_right _ List.mem_cons_self))

/-- Two topics are isolated exactly when their names resolve to places apart from
each other, from the data directory and from the offset store, and neither name
is the other followed by a slash and more.  Two names of one plain element that
are not the offset store's are. -/
theorem topics_isolated_iff (d : DataDir) (t t' : TopicSpec) :
    (Isolated d t t' ↔
      Apart d t t' ∧ Apart d t' t ∧ Separate {t.name, t'.name}) ∧
    (Plain t.name → Plain t'.name → t.name ≠ t'.name →
      t.name ≠ offsetsName → t'.name ≠ offsetsName → Isolated d t t') := by
  have isolated_iff : Isolated d t t' ↔
      Apart d t t' ∧ Apart d t' t ∧ Separate {t.name, t'.name} := by
    constructor
    · intro isolated
      have apart := (keepsClear_iff d t t').mp isolated.1.1
      have apart' := (keepsClear_iff d t' t).mp isolated.2.1
      exact ⟨apart, apart', isolated.separate apart apart'⟩
    · rintro ⟨apart, apart', separate⟩
      have swapped : Separate {t'.name, t.name} := by
        rw [Set.pair_comm]
        exact separate
      exact ⟨⟨(keepsClear_iff d t t').mpr apart, apart.leavesIntact separate⟩,
        (keepsClear_iff d t' t).mpr apart', apart'.leavesIntact swapped⟩
  refine ⟨isolated_iff, ?_⟩
  intro plain plain' different notStore notStore'
  exact isolated_iff.mpr ⟨apart_of_plain plain plain' different notStore d,
    apart_of_plain plain' plain different.symm notStore' d, separate_of_plain plain plain'⟩

/-- The data directory `/d`. -/
def sampleDir : DataDir := { cwd := [], path := [47, 100] }

theorem topics_isolated_iff_plain :
    Isolated sampleDir { name := [97], numPartitions := 1 } { name := [98], numPartitions := 1 } :=
  (topics_isolated_iff sampleDir _ _).2
    ⟨by decide, by decide, by decide, by decide⟩ ⟨by decide, by decide, by decide, by decide⟩
    (by decide) (by decide) (by decide)

/-- The topics `a` and `a/b`, of one partition each, and a message in the second. -/
def nestedTopics : DiskBroker :=
  let b : DiskBroker :=
    { dir := sampleDir
      broker := Broker.new sampleLibrary defaultConfig none
      disk := { wal := fun _ => none, offsets := true } }
  let b := (b.createTopic [97] 1 .fifo { opens := fun _ => true }).2
  let b := (b.createTopic [97, 47, 98] 1 .fifo { opens := fun _ => true }).2
  b.append [97, 47, 98] 0 (.plain [sampleMessage 5 7 118] (steadyEnv 9))

/-- Deleting `a` succeeds and takes the log of `a/b` with it, which stays
registered. -/
theorem delete_takes_nested_topic :
    let place := sampleDir.partitionDir [97, 47, 98] 0
    let deletion := nestedTopics.deleteTopic [97]
      { closes := fun _ => true, removes := true, gone := fun _ => true, flushed := true }
    (nestedTopics.disk.wal place).map (fun log => log.lastIndex) = some 1 ∧
    deletion.1 = .ok () ∧
    (deletion.2.broker.topics [97, 47, 98]).isSome ∧ (deletion.2.disk.wal place).isNone ∧
    ¬ Isolated sampleDir { name := [97], numPartitions := 1 }
      { name := [97, 47, 98], numPartitions := 1 } := by
  intro place deletion
  have outcome : (nestedTopics.disk.wal place).map (fun log => log.lastIndex) = some 1 ∧
      deletion.1 = .ok () ∧
      (deletion.2.broker.topics [97, 47, 98]).isSome ∧ (deletion.2.disk.wal place).isNone := by
    decide +kernel
  obtain ⟨written, deleted, registered, gone⟩ := outcome
  refine ⟨written, deleted, registered, gone, ?_⟩
  intro isolated
  have inside : sampleDir.topicTree [97] <+: place := by decide +kernel
  exact isolated.1.1.partitions place (by decide +kernel) inside

end TopicSpec

end NyaQueue
