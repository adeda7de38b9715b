import NyaQueue.TopicDeletion
import NyaQueue.Lib.Runs
import NyaQueue.Lib.Threads

/-!
# Creating and deleting one topic at the same time

`CreateTopic` and `DeleteTopic` take no lock.  A thread that runs one of them goes
on by one operation at a time: it opens one directory, does one operation of a
map, removes the tree of the topic or deletes the topic from the offset store.
Between any two of these other threads may run, and consumers commit offsets.
-/

set_option autoImplicit false

namespace NyaQueue

/-- The topic that `NewTopic` makes of the logs it has opened. -/
def Broker.newTopic (b : Broker) (name : Bytes) (mode : ScheduleMode) (logs : List Log) : Topic :=
  let codec := if b.snap.cfg.compressionType ≠ compressionNone then some b.snap.codec else none
  { name := name
    partitions := logs.mapIdx fun i log =>
      { Partition.new i log mode with batchCodec := codec } }

/-- A call in progress. -/
inductive TopicThread where
  /-- `CreateTopic`, with the logs opened so far -/
  | opening (numPartitions : Int) (mode : ScheduleMode) (logs : List Log)
  /-- `CreateTopic` has stored the topic and not yet its scheduler -/
  | registered (mode : ScheduleMode)
  /-- `DeleteTopic`, at its start -/
  | asked
  /-- `DeleteTopic` has taken the topic -/
  | taken (t : Topic)
  /-- … and stopped the scheduler -/
  | stopped (t : Topic)
  /-- … and closed the partitions -/
  | closed
  /-- … and removed the tree -/
  | removed
  | returned (result : Except TopicError Unit)

namespace TopicThread

/-- The call has taken the topic and not returned. -/
def deleting : TopicThread → Bool
  | .taken _ => true
  | .stopped _ => true
  | .closed => true
  | .removed => true
  | _ => false

def registering : TopicThread → Bool
  | .registered _ => true
  | _ => false

def stopping : TopicThread → Bool
  | .taken _ => true
  | _ => false

def succeeded : TopicThread → Bool
  | .returned (.ok _) => true
  | _ => false

def hasReturned : TopicThread → Bool
  | .returned _ => true
  | _ => false

end TopicThread

/-- The calls for one topic.  `old` are the keys of the offset store that were
last committed before the topic was last taken out of the map. -/
structure TopicRun where
  name : Bytes
  /-- whether a scheduler factory is set -/
  factory : Bool
  broker : DiskBroker
  threads : List TopicThread
  old : List Bytes

inductive TopicEvent where
  | create (numPartitions : Int) (mode : ScheduleMode)
  | delete
  /-- a call goes on; `opens` and `env` say how its next operation fares -/
  | advance (thread : Nat) (opens : Bool) (env : DeleteEnv)
  | commit (group topic : Bytes) (partition : Int) (offset : Int64) (now : Time) (written : Bool)

namespace TopicRun

variable (r : TopicRun)

def topic : Option Topic := r.broker.broker.topics r.name

def scheduler : Option ScheduleMode := r.broker.broker.schedulers r.name

def place (id : Nat) : FilePath.Location := r.broker.dir.partitionDir r.name id

/-- A call has done something to the disk only. -/
def resume (i : Nat) (thread : TopicThread) (disk : Disk) : TopicRun :=
  { r with
    broker := { r.broker with disk := disk }
    threads := r.threads.set i thread }

/-- A call has done something to the maps or the offset store. -/
def update (i : Nat) (thread : TopicThread) (broker : Broker) : TopicRun :=
  { r with
    broker := { r.broker with broker := broker }
    threads := r.threads.set i thread }

def openDir (i : Nat) (numPartitions : Int) (mode : ScheduleMode) (logs : List Log)
    (opens : Bool) : TopicRun :=
  let place := r.place logs.length
  if opens then
    let log := r.broker.disk.logAt place
    r.resume i (.opening numPartitions mode (logs ++ [log])) (r.broker.disk.write place log)
  else
    r.resume i (.returned (.error (.createPartition r.name logs.length))) r.broker.disk

/-- `LoadOrStore` -/
def storeTopic (i : Nat) (mode : ScheduleMode) (logs : List Log) : TopicRun :=
  match r.topic with
  | some _ => r.resume i (.returned (.error (.alreadyExists r.name))) r.broker.disk
  | none =>
      r.update i (.registered mode)
        (r.broker.broker.setTopic r.name (r.broker.broker.newTopic r.name mode logs))

def storeScheduler (i : Nat) (mode : ScheduleMode) : TopicRun :=
  let b := r.broker.broker
  r.update i (.returned (.ok ()))
    { b with
      schedulers := if r.factory then Function.update b.schedulers r.name (some mode)
        else b.schedulers }

/-- `LoadAndDelete` -/
def takeTopic (i : Nat) : TopicRun :=
  match r.topic with
  | none => r.resume i (.returned (.error (.notFound r.name))) r.broker.disk
  | some t =>
      let b := r.broker.broker
      { r.update i (.taken t) { b with topics := Function.update b.topics r.name none } with
        old := (b.offsetStore.map fun store => store.topicKeys r.name).getD [] }

def stopScheduler (i : Nat) (t : Topic) : TopicRun :=
  let b := r.broker.broker
  r.update i (.stopped t) { b with schedulers := Function.update b.schedulers r.name none }

def closeTopic (i : Nat) (t : Topic) (env : DeleteEnv) : TopicRun :=
  if t.closes env then r.resume i .closed r.broker.disk
  else r.resume i (.returned (.error (.close r.name))) r.broker.disk

def removeTree (i : Nat) (env : DeleteEnv) : TopicRun :=
  let removal := r.broker.disk.removeAll r.broker.dir (r.broker.dir.topicPath r.name) env
  if removal.1 then r.resume i .removed removal.2
  else r.resume i (.returned (.error (.removeDir r.name))) removal.2

def forgetOffsets (i : Nat) (env : DeleteEnv) : TopicRun :=
  let b := r.broker.broker
  r.update i (.returned (.ok ()))
    { b with
      offsetStore := b.offsetStore.map fun store => store.deleteTopic r.name env.flushed }

def advance (i : Nat) (opens : Bool) (env : DeleteEnv) : TopicRun :=
  match r.threads[i]? with
  | none => r
  | some (.returned _) => r
  | some (.opening numPartitions mode logs) =>
      if logs.length < partitionCount numPartitions then r.openDir i numPartitions mode logs opens
      else r.storeTopic i mode logs
  | some (.registered mode) => r.storeScheduler i mode
  | some .asked => r.takeTopic i
  | some (.taken t) => r.stopScheduler i t
  | some (.stopped t) => r.closeTopic i t env
  | some .closed => r.removeTree i env
  | some .removed => r.forgetOffsets i env

def commit (group topic : Bytes) (partition : Int) (offset : Int64) (now : Time)
    (written : Bool) : TopicRun :=
  let b := r.broker.broker
  { r with
    broker := { r.broker with
      broker := { b with
        offsetStore := b.offsetStore.map fun store =>
          (store.commit group topic partition offset now written).2 } }
    old := r.old.filter fun key => key ≠ bucketKey topic partition group }

def step : TopicEvent → TopicRun
  | .create numPartitions mode =>
      { r with threads := r.threads ++ [.opening numPartitions mode []] }
  | .delete => { r with threads := r.threads ++ [.asked] }
  | .advance i opens env => r.advance i opens env
  | .commit group topic partition offset now written =>
      r.commit group topic partition offset now written

/-! ## Calls that nothing interrupts -/

section Alone

variable {r} {i : Nat} (opens : Bool) (env : DeleteEnv)

theorem final_returned {result : Except TopicError Unit}
    (here : r.threads[i]? = some (.returned result)) (events : List TopicEvent)
    (mine : ∀ event ∈ events, ∃ opens env, event = .advance i opens env) :
    Runs.final step r events = r := by
  induction events with
  | nil => rfl
  | cons event rest ih =>
    obtain ⟨opens, env, rfl⟩ := mine event List.mem_cons_self
    have stays : r.step (.advance i opens env) = r := by rw [step, advance, here]
    rw [Runs.final_cons, stays]
    exact ih fun later member => mine later (List.mem_cons_of_mem _ member)

theorem cleanUp_alone {t : Topic} (here : r.threads[i]? = some (.stopped t)) :
    ∃ s, Runs.Repeats step (.advance i opens env) r s ∧
      s.broker = (r.broker.cleanUp r.name t env).2 ∧
      s.threads[i]? = some (.returned (r.broker.cleanUp r.name t env).1) := by
  have first : r.step (.advance i opens env) = r.closeTopic i t env := by rw [step, advance, here]
  unfold DiskBroker.cleanUp
  by_cases closes : t.closes env = true
  · rw [closeTopic, if_pos closes] at first
    rw [if_pos closes]
    have at_closed : (r.resume i .closed r.broker.disk).threads[i]? = some .closed :=
      Threads.set_self here _
    have second : (r.resume i .closed r.broker.disk).step (.advance i opens env) =
        (r.resume i .closed r.broker.disk).removeTree i env := by rw [step, advance, at_closed]
    let removal := r.broker.disk.removeAll r.broker.dir (r.broker.dir.topicPath r.name) env
    by_cases removes : removal.1 = true
    · have removed : (r.resume i .closed r.broker.disk).removeTree i env =
          (r.resume i .closed r.broker.disk).resume i .removed removal.2 := if_pos removes
      have at_removed : ((r.resume i .closed r.broker.disk).resume i .removed
          removal.2).threads[i]? = some .removed := Threads.set_self at_closed _
      have third : ((r.resume i .closed r.broker.disk).resume i .removed removal.2).step
          (.advance i opens env) =
          ((r.resume i .closed r.broker.disk).resume i .removed removal.2).forgetOffsets i env := by
        rw [step, advance, at_removed]
      refine ⟨_, .of_step first (.of_step (second.trans removed) (.of_step third (.refl step _ _))),
        ?_⟩
      dsimp only
      rw [if_pos removes]
      exact ⟨rfl, Threads.set_self at_removed _⟩
    · have kept : (r.resume i .closed r.broker.disk).removeTree i env =
          (r.resume i .closed r.broker.disk).resume i
            (.returned (.error (.removeDir r.name))) removal.2 := if_neg removes
      refine ⟨_, .of_step first (.of_step (second.trans kept) (.refl step _ _)), ?_⟩
      dsimp only
      rw [if_neg removes]
      exact ⟨rfl, Threads.set_self at_closed _⟩
  · rw [closeTopic, if_neg closes] at first
    rw [if_neg closes]
    refine ⟨_, .of_step first (.refl step _ _), ?_⟩
    exact ⟨rfl, Threads.set_self here _⟩

theorem delete_alone (here : r.threads[i]? = some .asked) :
    ∃ s, Runs.Repeats step (.advance i opens env) r s ∧
      s.broker = (r.broker.deleteTopic r.name env).2 ∧
      s.threads[i]? = some (.returned (r.broker.deleteTopic r.name env).1) := by
  have first : r.step (.advance i opens env) = r.takeTopic i := by rw [step, advance, here]
  cases there : r.broker.broker.topics r.name with
  | none =>
    refine ⟨_, .of_step first (.refl step _ _), ?_⟩
    rw [r.broker.deleteTopic_missing r.name there, takeTopic, topic, there]
    exact ⟨rfl, Threads.set_self here _⟩
  | some t =>
    have at_taken : (r.takeTopic i).threads[i]? = some (.taken t) := by
      rw [takeTopic, topic, there]
      exact Threads.set_self here _
    have second : (r.takeTopic i).step (.advance i opens env) =
        (r.takeTopic i).stopScheduler i t := by rw [step, advance, at_taken]
    have at_stopped : ((r.takeTopic i).stopScheduler i t).threads[i]? = some (.stopped t) :=
      Threads.set_self at_taken _
    have unregistered : ((r.takeTopic i).stopScheduler i t).broker =
        r.broker.unregister r.name ∧ ((r.takeTopic i).stopScheduler i t).name = r.name := by
      rw [takeTopic, topic, there]
      exact ⟨rfl, rfl⟩
    obtain ⟨s, rest, broker, result⟩ := cleanUp_alone opens env at_stopped
    rw [unregistered.1, unregistered.2, ← r.broker.deleteTopic_registered r.name there]
      at broker result
    exact ⟨s, .of_step first (.of_step second rest), broker, result⟩

theorem register_alone (factory : r.factory = true) {numPartitions : Int} {mode : ScheduleMode}
    {logs : List Log} (here : r.threads[i]? = some (.opening numPartitions mode logs))
    (complete : partitionCount numPartitions ≤ logs.length) (opens' : Bool) :
    let s := Runs.final step r [.advance i opens env, .advance i opens' env]
    let result := r.broker.register r.name mode (.ok logs, r.broker.disk)
    s.broker = result.2 ∧ s.threads[i]? = some (.returned result.1) := by
  intro s result
  have first : r.step (.advance i opens env) = r.storeTopic i mode logs := by
    rw [step, advance, here]
    exact if_neg (Nat.not_lt.mpr complete)
  have run : s = (r.storeTopic i mode logs).step (.advance i opens' env) := by
    rw [← first]
    rfl
  cases there : r.broker.broker.topics r.name with
  | some t =>
    have refused : r.broker.broker.createTopic r.name mode logs = none := by
      rw [Broker.createTopic, there]
    have answer : result = (.error (.alreadyExists r.name), r.broker) := by
      simp only [result, DiskBroker.register, refused]
    have at_end : (r.storeTopic i mode logs).threads[i]? =
        some (.returned (.error (.alreadyExists r.name))) := by
      rw [storeTopic, topic, there]
      exact Threads.set_self here _
    have stays : s = r.storeTopic i mode logs := by rw [run, step, advance, at_end]
    rw [stays, answer]
    refine ⟨?_, at_end⟩
    rw [storeTopic, topic, there]
    rfl
  | none =>
    have at_registered : (r.storeTopic i mode logs).threads[i]? = some (.registered mode) := by
      rw [storeTopic, topic, there]
      exact Threads.set_self here _
    have scheduled : s = (r.storeTopic i mode logs).storeScheduler i mode := by
      rw [run, step, advance, at_registered]
    have stored : r.broker.broker.createTopic r.name mode logs = some
        { r.broker.broker.setTopic r.name (r.broker.broker.newTopic r.name mode logs) with
          schedulers := Function.update r.broker.broker.schedulers r.name (some mode) } := by
      rw [Broker.createTopic, there]
      rfl
    have answer : result = (.ok (), { r.broker with broker :=
        { r.broker.broker.setTopic r.name (r.broker.broker.newTopic r.name mode logs) with
          schedulers := Function.update r.broker.broker.schedulers r.name (some mode) } }) := by
      simp only [result, DiskBroker.register, stored]
    rw [scheduled, answer]
    refine ⟨?_, Threads.set_self at_registered _⟩
    unfold storeTopic topic
    rw [there]
    unfold storeScheduler update
    dsimp only
    rw [if_pos factory]
    rfl

theorem create_alone (factory : r.factory = true) (opening : CreateEnv) {numPartitions : Int}
    {mode : ScheduleMode} (left : Nat) {logs : List Log}
    (here : r.threads[i]? = some (.opening numPartitions mode logs))
    (total : logs.length + left = partitionCount numPartitions) :
    let s := Runs.final step r
      ((List.range' logs.length (left + 2)).map fun k => .advance i (opening.opens k) env)
    let result := r.broker.register r.name mode
      (DiskBroker.openLogs r.broker.dir r.name opening left logs.length r.broker.disk logs)
    s.broker = result.2 ∧ s.threads[i]? = some (.returned result.1) := by
  -- the directories that are left to open; the logs and the disk change with them
  induction left generalizing r logs with
  | zero => exact register_alone _ env factory here (by omega) _
  | succ left ih =>
    have first : ∀ opens, r.step (.advance i opens env) =
        r.openDir i numPartitions mode logs opens := by
      intro opens
      rw [step, advance, here]
      exact if_pos (by omega)
    rw [List.range'_succ, List.map_cons, Runs.final_cons, first, DiskBroker.openLogs, openDir]
    dsimp only
    by_cases opens : opening.opens logs.length = true
    · rw [if_pos opens, if_pos opens]
      have longer : (logs ++ [r.broker.disk.logAt (r.place logs.length)]).length =
          logs.length + 1 := by rw [List.length_append, List.length_singleton]
      have rest := ih (r := r.resume i (.opening numPartitions mode
          (logs ++ [r.broker.disk.logAt (r.place logs.length)]))
          (r.broker.disk.write (r.place logs.length) (r.broker.disk.logAt (r.place logs.length))))
        factory (Threads.set_self here _) (by omega)
      rw [longer] at rest
      exact rest
    · rw [if_neg opens, if_neg opens]
      have at_end := Threads.set_self here
        (.returned (.error (.createPartition r.name logs.length)))
      rw [final_returned at_end _ (by
        intro event member
        obtain ⟨k, -, rfl⟩ := List.mem_map.mp member
        exact ⟨_, _, rfl⟩)]
      exact ⟨rfl, at_end⟩

end Alone

/-! ## What should hold -/

def Quiescent : Prop := ∀ thread ∈ r.threads, thread.hasReturned = true

/-- A topic in the map has its scheduler and its directories, and shows no offset
from before the deletion; without a topic there is no scheduler. -/
structure Consistent : Prop where
  scheduled : r.topic.isSome → r.factory = true → r.scheduler.isSome
  dirs : ∀ t, r.topic = some t → ∀ id < t.partitions.length,
    (r.broker.disk.wal (r.place id)).isSome
  forgotten : r.topic.isSome → ∀ store, r.broker.broker.offsetStore = some store →
    ∀ key ∈ r.old, store.cache.lookup key = none
  unscheduled : r.topic = none → r.scheduler = none

/-- No call is in progress, and the map, the schedulers and the disk agree. -/
structure Ready : Prop where
  threads : r.threads = []
  old : r.old = []
  consistent : r.Consistent

/-- What the next operation of a call must meet: a topic is stored when no
deletion is under way and its directories are still there; it is taken when no
creation has its scheduler yet to store; and a deletion that has taken it does
not fail. -/
def InOrder (thread : TopicThread) (env : DeleteEnv) : Prop :=
  match thread with
  | .opening numPartitions _ logs =>
      partitionCount numPartitions ≤ logs.length → r.topic = none →
        (∀ other ∈ r.threads, other.deleting = false) ∧
          ∀ id < logs.length, (r.broker.disk.wal (r.place id)).isSome
  | .asked => r.topic.isSome → ∀ other ∈ r.threads, other.registering = false
  | .stopped t => t.closes env = true
  | .closed => (r.broker.disk.removeAll r.broker.dir (r.broker.dir.topicPath r.name) env).1 = true
  | _ => True

def Orderly : TopicEvent → Prop
  | .advance i _ env => ∀ thread ∈ r.threads[i]?, r.InOrder thread env
  | _ => True

instance inOrderDecidable (r : TopicRun) (env : DeleteEnv) :
    ∀ thread, Decidable (r.InOrder thread env)
  | .opening numPartitions _ logs =>
      inferInstanceAs (Decidable (partitionCount numPartitions ≤ logs.length → r.topic = none →
        (∀ other ∈ r.threads, other.deleting = false) ∧
          ∀ id < logs.length, (r.broker.disk.wal (r.place id)).isSome))
  | .asked =>
      inferInstanceAs
        (Decidable (r.topic.isSome → ∀ other ∈ r.threads, other.registering = false))
  | .stopped t => inferInstanceAs (Decidable (t.closes env = true))
  | .closed => inferInstanceAs (Decidable
      ((r.broker.disk.removeAll r.broker.dir (r.broker.dir.topicPath r.name) env).1 = true))
  | .registered _ => isTrue trivial
  | .taken _ => isTrue trivial
  | .removed => isTrue trivial
  | .returned _ => isTrue trivial

instance orderlyDecidable (r : TopicRun) : ∀ event, Decidable (r.Orderly event)
  | .advance i _ env => inferInstanceAs (Decidable (∀ thread ∈ r.threads[i]?, r.InOrder thread env))
  | .create _ _ => isTrue trivial
  | .delete => isTrue trivial
  | .commit _ _ _ _ _ _ => isTrue trivial

instance quiescentDecidable (r : TopicRun) : Decidable r.Quiescent :=
  inferInstanceAs (Decidable (∀ thread ∈ r.threads, thread.hasReturned = true))

/-! ## The invariant -/

/-- Between the calls of a run in order: what is still to be done is in the hands
of some call. -/
structure Inv : Prop where
  scheduled : r.topic.isSome → r.factory = true →
    r.scheduler.isSome ∨ ∃ thread ∈ r.threads, thread.registering = true
  dirs : ∀ t, r.topic = some t → ∀ id < t.partitions.length,
    (r.broker.disk.wal (r.place id)).isSome
  undisturbed : r.topic.isSome → ∀ thread ∈ r.threads, thread.deleting = false
  registering : r.topic = none → ∀ thread ∈ r.threads, thread.registering = false
  stopping : r.topic = none → r.scheduler = none ∨ ∃ thread ∈ r.threads, thread.stopping = true
  keys : ∀ key ∈ r.old, (r.name ++ [47]) <+: key
  forgotten : (∀ thread ∈ r.threads, thread.deleting = false) →
    ∀ store, r.broker.broker.offsetStore = some store →
      ∀ key ∈ r.old, store.cache.lookup key = none

variable {r}

theorem Ready.inv (ready : r.Ready) : r.Inv where
  scheduled present factory := .inl (ready.consistent.scheduled present factory)
  dirs := ready.consistent.dirs
  undisturbed _ thread member := by
    rw [ready.threads] at member
    cases member
  registering _ thread member := by
    rw [ready.threads] at member
    cases member
  stopping absent := .inl (ready.consistent.unscheduled absent)
  keys key member := by
    rw [ready.old] at member
    cases member
  forgotten _ store _ key member := by
    rw [ready.old] at member
    cases member

theorem Inv.consistent (inv : r.Inv) (quiescent : r.Quiescent) : r.Consistent := by
  have idle : ∀ thread ∈ r.threads, thread.deleting = false ∧ thread.registering = false ∧
      thread.stopping = false := by
    intro thread member
    have returned := quiescent thread member
    cases thread with
    | returned result => exact ⟨rfl, rfl, rfl⟩
    | _ => cases returned
  refine ⟨?_, inv.dirs, ?_, ?_⟩
  · intro present factory
    rcases inv.scheduled present factory with scheduled | ⟨thread, member, registering⟩
    · exact scheduled
    · rw [(idle thread member).2.1] at registering
      cases registering
  · intro _
    exact inv.forgotten fun thread member => (idle thread member).1
  · intro absent
    rcases inv.stopping absent with unscheduled | ⟨thread, member, stopping⟩
    · exact unscheduled
    · rw [(idle thread member).2.2] at stopping
      cases stopping

/-! ## One step -/

variable {i : Nat} {mode : ScheduleMode} {env : DeleteEnv}

theorem Inv.resume (inv : r.Inv) {before after : TopicThread} {disk : Disk}
    (here : r.threads[i]? = some before) (deleting : after.deleting = before.deleting)
    (registering : before.registering = false ∧ after.registering = false)
    (stopping : before.stopping = false)
    (kept : r.topic.isSome → ∀ place, (r.broker.disk.wal place).isSome →
      (disk.wal place).isSome) : (r.resume i after disk).Inv where
  scheduled present factory :=
    (inv.scheduled present factory).imp_right fun other => Threads.exists_set here registering.1 other
  dirs t there id small := by
    have present : r.topic.isSome := Option.isSome_of_eq_some there
    exact kept present _ (inv.dirs t there id small)
  undisturbed present := by
    have none := inv.undisturbed present
    exact Threads.forall_set none (deleting.trans (none before (List.mem_of_getElem? here)))
  registering absent := Threads.forall_set (inv.registering absent) registering.2
  stopping absent := (inv.stopping absent).imp_right fun other => Threads.exists_set here stopping other
  keys := inv.keys
  forgotten none :=
    inv.forgotten (Threads.forall_of_set here (fun own => deleting.trans own) none)

theorem Disk.write_isSome (disk : Disk) (place other : FilePath.Location) (log : Log)
    (there : (disk.wal other).isSome) : ((disk.write place log).wal other).isSome := by
  unfold Disk.write
  dsimp only
  by_cases same : other = place
  · rw [same, Function.update_self]
    rfl
  · rw [Function.update_of_ne same]
    exact there

theorem Inv.openDir (inv : r.Inv) {numPartitions : Int} {logs : List Log}
    (here : r.threads[i]? = some (.opening numPartitions mode logs)) (opens : Bool) :
    (r.openDir i numPartitions mode logs opens).Inv := by
  unfold TopicRun.openDir
  dsimp only
  split_ifs
  · exact inv.resume here rfl ⟨rfl, rfl⟩ rfl fun _ place there =>
      Disk.write_isSome _ _ place _ there
  · exact inv.resume here rfl ⟨rfl, rfl⟩ rfl fun _ _ there => there

theorem Inv.storeTopic (inv : r.Inv) {numPartitions : Int} {logs : List Log}
    (here : r.threads[i]? = some (.opening numPartitions mode logs))
    (order : r.topic = none → (∀ other ∈ r.threads, other.deleting = false) ∧
      ∀ id < logs.length, (r.broker.disk.wal (r.place id)).isSome) :
    (r.storeTopic i mode logs).Inv := by
  unfold TopicRun.storeTopic
  cases found : r.topic with
  | some t => exact inv.resume here rfl ⟨rfl, rfl⟩ rfl fun _ _ there => there
  | none =>
    obtain ⟨undisturbed, dirs⟩ := order found
    obtain ⟨inside, -⟩ := List.getElem?_eq_some_iff.mp here
    have stored : (r.update i (.registered mode) (r.broker.broker.setTopic r.name
        (r.broker.broker.newTopic r.name mode logs))).topic =
          some (r.broker.broker.newTopic r.name mode logs) := Function.update_self _ _ _
    refine ⟨?_, ?_, ?_, ?_, ?_, inv.keys, ?_⟩
    · intro _ _
      exact .inr ⟨_, List.mem_set inside _, rfl⟩
    · intro t there id small
      rw [stored] at there
      rw [← Option.some.inj there, Broker.newTopic, List.length_mapIdx] at small
      exact dirs id small
    · intro _
      exact Threads.forall_set undisturbed rfl
    · intro absent
      rw [stored] at absent
      cases absent
    · intro absent
      rw [stored] at absent
      cases absent
    · intro _
      exact inv.forgotten undisturbed

theorem Inv.storeScheduler (inv : r.Inv) (here : r.threads[i]? = some (.registered mode)) :
    (r.storeScheduler i mode).Inv where
  scheduled _ factory := by
    left
    have set : r.factory = true := factory
    simp [TopicRun.storeScheduler, TopicRun.update, TopicRun.scheduler, set]
  dirs := inv.dirs
  undisturbed present := Threads.forall_set (inv.undisturbed present) rfl
  registering absent := Threads.forall_set (inv.registering absent) rfl
  stopping absent := by
    -- a call that has stored the topic finds it in the map
    have none := inv.registering absent _ (List.mem_of_getElem? here)
    cases none
  keys := inv.keys
  forgotten none := inv.forgotten (Threads.forall_of_set here (fun own => (by cases own)) none)

theorem Inv.takeTopic (inv : r.Inv) (here : r.threads[i]? = some .asked)
    (order : r.topic.isSome → ∀ other ∈ r.threads, other.registering = false) :
    (r.takeTopic i).Inv := by
  unfold TopicRun.takeTopic
  cases found : r.topic with
  | none => exact inv.resume here rfl ⟨rfl, rfl⟩ rfl fun _ _ there => there
  | some t =>
    obtain ⟨inside, -⟩ := List.getElem?_eq_some_iff.mp here
    have gone : ∀ old, TopicRun.topic { r.update i (.taken t) { r.broker.broker with
        topics := Function.update r.broker.broker.topics r.name none } with old := old } = none :=
      fun _ => Function.update_self _ _ _
    dsimp only
    refine ⟨?_, ?_, ?_, ?_, ?_, ?_, ?_⟩
    · intro present
      rw [gone] at present
      cases present
    · intro t there
      rw [gone] at there
      cases there
    · intro present
      rw [gone] at present
      cases present
    · intro _
      exact Threads.forall_set (order (by rw [found]; rfl)) rfl
    · intro _
      exact .inr ⟨_, List.mem_set inside _, rfl⟩
    · intro key member
      dsimp only at member
      cases stored : r.broker.broker.offsetStore with
      | none =>
        rw [stored] at member
        cases member
      | some store =>
        rw [stored] at member
        exact ((store.mem_topicKeys r.name key).mp member).2
    · intro none
      have own := none _ (List.mem_set inside _)
      cases own

theorem Inv.absent (inv : r.Inv) {thread : TopicThread} (here : r.threads[i]? = some thread)
    (deleting : thread.deleting = true) :
    ¬ r.topic.isSome := by
  intro present
  have none := inv.undisturbed present _ (List.mem_of_getElem? here)
  rw [deleting] at none
  cases none

theorem Inv.stopScheduler (inv : r.Inv) {t : Topic} (here : r.threads[i]? = some (.taken t)) :
    (r.stopScheduler i t).Inv where
  scheduled present _ := absurd present (inv.absent here rfl)
  dirs := inv.dirs
  undisturbed present := absurd present (inv.absent here rfl)
  registering absent := Threads.forall_set (inv.registering absent) rfl
  stopping _ := .inl (Function.update_self _ _ _)
  keys := inv.keys
  forgotten none := inv.forgotten (Threads.forall_of_set here (fun _ => rfl) none)

theorem Inv.closeTopic (inv : r.Inv) {t : Topic} (here : r.threads[i]? = some (.stopped t))
    (closes : t.closes env = true) :
    (r.closeTopic i t env).Inv := by
  unfold TopicRun.closeTopic
  rw [if_pos closes]
  exact inv.resume here rfl ⟨rfl, rfl⟩ rfl fun _ _ there => there

theorem Inv.removeTree (inv : r.Inv) (here : r.threads[i]? = some .closed)
    (removes : (r.broker.disk.removeAll r.broker.dir (r.broker.dir.topicPath r.name) env).1 =
      true) : (r.removeTree i env).Inv := by
  unfold TopicRun.removeTree
  dsimp only
  rw [if_pos removes]
  exact inv.resume here rfl ⟨rfl, rfl⟩ rfl fun present => absurd present (inv.absent here rfl)

theorem Inv.forgetOffsets (inv : r.Inv) (env : DeleteEnv) (here : r.threads[i]? = some .removed) :
    (r.forgetOffsets i env).Inv where
  scheduled present factory :=
    (inv.scheduled present factory).imp_right fun other => Threads.exists_set here rfl other
  dirs := inv.dirs
  undisturbed present := Threads.forall_set (inv.undisturbed present) rfl
  registering absent := Threads.forall_set (inv.registering absent) rfl
  stopping absent := (inv.stopping absent).imp_right fun other => Threads.exists_set here rfl other
  keys := inv.keys
  forgotten _ store there key member := by
    obtain ⟨before, -, rfl⟩ := Option.map_eq_some_iff.mp there
    exact before.deleteTopic_lookup_starts (inv.keys key member) env.flushed

theorem Inv.advance (inv : r.Inv) {opens : Bool}
    (order : ∀ thread, r.threads[i]? = some thread → r.InOrder thread env) :
    (r.advance i opens env).Inv := by
  unfold TopicRun.advance
  cases here : r.threads[i]? with
  | none => exact inv
  | some thread =>
    have mine := order thread here
    cases thread with
    | returned result => exact inv
    | opening numPartitions mode logs =>
      dsimp only
      split_ifs with more
      · exact inv.openDir here opens
      · exact inv.storeTopic here (mine (Nat.le_of_not_lt more))
    | registered mode => exact inv.storeScheduler here
    | asked => exact inv.takeTopic here mine
    | taken t => exact inv.stopScheduler here
    | stopped t => exact inv.closeTopic here mine
    | closed => exact inv.removeTree here mine
    | removed => exact inv.forgetOffsets env here

theorem Inv.commit (inv : r.Inv) (group topic : Bytes) (partition : Int) (offset : Int64)
    (now : Time) (written : Bool) : (r.commit group topic partition offset now written).Inv where
  scheduled := inv.scheduled
  dirs := inv.dirs
  undisturbed := inv.undisturbed
  registering := inv.registering
  stopping := inv.stopping
  keys key member := inv.keys key (List.mem_of_mem_filter member)
  forgotten none store there key member := by
    obtain ⟨before, stored, rfl⟩ := Option.map_eq_some_iff.mp there
    obtain ⟨old, other⟩ := List.mem_filter.mp member
    have different : key ≠ bucketKey topic partition group := of_decide_eq_true other
    rw [OffsetStore.commit_cache, AList.lookup_insert_ne different]
    exact inv.forgotten none before stored key old

theorem Inv.start (inv : r.Inv) {thread : TopicThread} (deleting : thread.deleting = false)
    (registering : thread.registering = false) :
    TopicRun.Inv { r with threads := r.threads ++ [thread] } := by
  have all : ∀ p : TopicThread → Bool, p thread = false →
      (∀ other ∈ r.threads, p other = false) →
      ∀ other ∈ r.threads ++ [thread], p other = false := by
    intro p new old other member
    rcases List.mem_append.mp member with before | last
    · exact old other before
    · rw [List.mem_singleton.mp last]
      exact new
  have some_thread : ∀ p : TopicThread → Bool, (∃ other ∈ r.threads, p other = true) →
      ∃ other ∈ r.threads ++ [thread], p other = true := by
    rintro p ⟨other, member, holds⟩
    exact ⟨other, List.mem_append_left _ member, holds⟩
  refine ⟨?_, inv.dirs, ?_, ?_, ?_, inv.keys, ?_⟩
  · intro present factory
    exact (inv.scheduled present factory).imp_right (some_thread _)
  · intro present
    exact all _ deleting (inv.undisturbed present)
  · intro absent
    exact all _ registering (inv.registering absent)
  · intro absent
    exact (inv.stopping absent).imp_right (some_thread _)
  · intro none
    exact inv.forgotten fun other member => none other (List.mem_append_left _ member)

theorem Inv.step (inv : r.Inv) {event : TopicEvent} (order : r.Orderly event) :
    (r.step event).Inv := by
  cases event with
  | create numPartitions mode => exact inv.start rfl rfl
  | delete => exact inv.start rfl rfl
  | advance i opens env => exact inv.advance order
  | commit group topic partition offset now written =>
    exact inv.commit group topic partition offset now written

/-- In a run whose operations come in order, whenever all calls have returned the
map, the schedulers, the disk and the offsets agree. -/
theorem topic_calls_settle (r : TopicRun) (ready : r.Ready) (events : List TopicEvent)
    (order : Runs.Guarded step Orderly r events) :
    ∀ s ∈ Runs.states step r events, s.Quiescent → s.Consistent := by
  have inv := Runs.invariant_states (fun (s : TopicRun) event (inv : s.Inv) order => inv.step order)
    events r ready.inv order
  intro s member quiescent
  exact (inv s member).consistent quiescent

/-- A topic with a message and a committed offset. -/
def oneTopic : TopicRun where
  name := [116]
  factory := true
  broker := DiskBroker.committedTopic
  threads := []
  old := []

theorem oneTopic_ready : oneTopic.Ready := by
  have facts : oneTopic.scheduler.isSome ∧ oneTopic.topic.isSome ∧
      oneTopic.topic.map (fun t => t.partitions.length) = some 1 ∧
      (oneTopic.broker.disk.wal (oneTopic.place 0)).isSome := by decide +kernel
  obtain ⟨scheduled, present, partitions, dir⟩ := facts
  refine ⟨rfl, rfl, fun _ _ => scheduled, ?_, ?_, ?_⟩
  · intro t there id small
    rw [there] at partitions
    have one : t.partitions.length = 1 := Option.some.inj partitions
    rw [one] at small
    rw [Nat.lt_one_iff.mp small]
    exact dir
  · intro _ store _ key member
    cases member
  · intro absent
    rw [absent] at present
    cases present

/-- An operation that works. -/
def works : DeleteEnv :=
  { closes := fun _ => true, removes := true, gone := fun _ => true, flushed := true }

/-- The topic is deleted, and then created again. -/
def inTurn : List TopicEvent :=
  .delete :: List.replicate 5 (.advance 0 true works) ++
    .create 1 .fifo :: List.replicate 3 (.advance 1 true works)

theorem topic_calls_settle_in_turn :
    (Runs.final step oneTopic inTurn).Quiescent ∧ (Runs.final step oneTopic inTurn).topic.isSome ∧
    (Runs.final step oneTopic inTurn).old ≠ [] ∧ (Runs.final step oneTopic inTurn).Consistent := by
  have order : Runs.Guarded step Orderly oneTopic inTurn := by decide +kernel
  have outcome : (Runs.final step oneTopic inTurn).Quiescent ∧
      (Runs.final step oneTopic inTurn).topic.isSome ∧
      (Runs.final step oneTopic inTurn).old ≠ [] := by decide +kernel
  obtain ⟨quiescent, present, old⟩ := outcome
  exact ⟨quiescent, present, old, topic_calls_settle oneTopic oneTopic_ready inTurn order _
    (Runs.final_mem_states step inTurn oneTopic) quiescent⟩

/-- The topic is created again after the deletion has taken it, and before the
deletion goes on. -/
def overtaken : List TopicEvent :=
  [.delete, .advance 0 true works, .create 1 .fifo] ++
    List.replicate 3 (.advance 1 true works) ++ List.replicate 4 (.advance 0 true works)

/-- Both calls succeed, and the topic is left without scheduler and directory. -/
theorem late_delete_wrecks_topic :
    let s := Runs.final step oneTopic overtaken
    oneTopic.Ready ∧ s.Quiescent ∧
    (∀ thread ∈ s.threads, thread.succeeded = true) ∧
    s.topic.isSome ∧ s.scheduler = none ∧ (s.broker.disk.wal (s.place 0)).isNone ∧
    ¬ s.Consistent := by
  intro s
  have outcome : s.Quiescent ∧ (∀ thread ∈ s.threads, thread.succeeded = true) ∧
      s.topic.isSome ∧ s.scheduler = none ∧ (s.broker.disk.wal (s.place 0)).isNone ∧
      s.factory = true := by
    decide +kernel
  obtain ⟨quiescent, succeeded, present, unscheduled, gone, factory⟩ := outcome
  refine ⟨oneTopic_ready, quiescent, succeeded, present, unscheduled, gone, ?_⟩
  intro consistent
  have scheduled := consistent.scheduled present factory
  rw [unscheduled] at scheduled
  cases scheduled

end TopicRun

end NyaQueue
