import NyaQueue.Produce

/-!
# What a consumer call does to a topic

`ConsumeBatch` under any scheduler: it pops entries of the priority index and
commits an offset, and leaves the log of every partition alone.  The offsets it
has read its messages from are not part of its result; `consumedOffsets` runs
its loop once more to list them.
-/

set_option autoImplicit false

namespace NyaQueue

/-! ## Topics related partition by partition -/

namespace Topic

structure Related (relation : Partition → Partition → Prop) (t t' : Topic) : Prop where
  forward : ∀ id p, t.partition id = .ok p → ∃ p', t'.partition id = .ok p' ∧ relation p p'
  backward : ∀ id p', t'.partition id = .ok p' → ∃ p, t.partition id = .ok p ∧ relation p p'

section Related

variable {relation : Partition → Partition → Prop} {t t' t'' : Topic} {id : Int}
  {p p' : Partition}

theorem Related.refl (reflexive : ∀ p, relation p p) (t : Topic) : t.Related relation t :=
  ⟨fun _ p there => ⟨p, there, reflexive p⟩, fun _ p there => ⟨p, there, reflexive p⟩⟩

theorem Related.trans (transitive : ∀ p q r, relation p q → relation q r → relation p r)
    (first : t.Related relation t') (second : t'.Related relation t'') :
    t.Related relation t'' := by
  constructor
  · intro id p there
    obtain ⟨q, there', left⟩ := first.forward id p there
    obtain ⟨r, there'', right⟩ := second.forward id q there'
    exact ⟨r, there'', transitive p q r left right⟩
  · intro id r there''
    obtain ⟨q, there', right⟩ := second.backward id r there''
    obtain ⟨p, there, left⟩ := first.backward id q there'
    exact ⟨p, there, transitive p q r left right⟩

theorem Related.imp {weaker : Partition → Partition → Prop}
    (implies : ∀ p p', relation p p' → weaker p p') (related : t.Related relation t') :
    t.Related weaker t' := by
  constructor
  · intro id p there
    obtain ⟨p', there', holds⟩ := related.forward id p there
    exact ⟨p', there', implies p p' holds⟩
  · intro id p' there'
    obtain ⟨p, there, holds⟩ := related.backward id p' there'
    exact ⟨p, there, implies p p' holds⟩

theorem Related.setPartition (reflexive : ∀ p, relation p p) (there : t.partition id = .ok p)
    (changed : relation p p') : t.Related relation (t.setPartition id p') := by
  have valid := ((t.partition_ok_iff id p).mp there).1
  have here := partition_setPartition_self there p'
  constructor
  · intro id' q found
    by_cases same : id' = id
    · subst same
      rw [there] at found
      cases found
      exact ⟨p', here, changed⟩
    · exact ⟨q, (partition_setPartition_ne valid same p').trans found, reflexive q⟩
  · intro id' q found
    by_cases same : id' = id
    · subst same
      rw [here] at found
      cases found
      exact ⟨p, there, changed⟩
    · exact ⟨q, (partition_setPartition_ne valid same p').symm.trans found, reflexive q⟩

theorem Related.map {change : Partition → Partition} (changed : ∀ p, relation p (change p)) :
    t.Related relation { t with partitions := t.partitions.map change } := by
  constructor
  · intro id p there
    obtain ⟨valid, at_id⟩ := (t.partition_ok_iff id p).mp there
    refine ⟨change p, (partition_ok_iff ..).mpr ⟨valid, ?_⟩, changed p⟩
    rw [List.getElem?_map, at_id]
    rfl
  · intro id p' there
    obtain ⟨valid, at_id⟩ := (partition_ok_iff ..).mp there
    rw [List.getElem?_map, Option.map_eq_some_iff] at at_id
    obtain ⟨p, at_id, rfl⟩ := at_id
    exact ⟨p, (t.partition_ok_iff id p).mpr ⟨valid, at_id⟩, changed p⟩

end Related

end Topic

/-! ## Partitions whose log only grows -/

namespace Partition

/-- `q` is `p` with possibly more records behind. -/
structure Grows (p q : Partition) : Prop where
  id : q.id = p.id
  firstIndex : q.log.firstIndex = p.log.firstIndex
  nextIndex : p.log.nextIndex ≤ q.log.nextIndex

theorem Grows.refl (p : Partition) : p.Grows p := ⟨rfl, rfl, Nat.le_refl _⟩

theorem grows_run (p : Partition) (call : AppendCall) : p.Grows (call.run p).2 := by
  rcases call.run_after p with same | ahead | ⟨batch, log, written, -, stored⟩
  · rw [same]
    exact Grows.refl p
  · rw [ahead]
    exact ⟨rfl, rfl, Nat.le_refl _⟩
  · rw [stored]
    have next := Log.nextIndex_writeBatch written
    obtain ⟨-, -, first, -⟩ := Log.writeBatch_ok written
    refine ⟨rfl, first, ?_⟩
    simp only [Partition.stored, advance]
    omega

end Partition

theorem Topic.Appended.grows {t t' : Topic} (appended : t.Appended t') :
    t.Related Partition.Grows t' := by
  cases appended with
  | none => exact .refl Partition.Grows.refl t
  | @call id p there call =>
    exact .setPartition Partition.Grows.refl there (p.grows_run call)

namespace Partition

theorem next_partition (p : Partition) (mode : ScheduleMode) (threshold : Int) (offset : Nat) :
    ∃ pi, (p.next mode threshold offset).2 = { p with priorityIndex := pi } := by
  have popped : ∀ pop, ∃ pi, (p.popNext pop).2 = { p with priorityIndex := pi } := by
    intro pop
    cases indexed : p.priorityIndex with
    | none =>
      have unindexed : p.popNext pop = (.error (.noPriorityIndex p.id), p) := by
        unfold popNext
        rw [indexed]
      exact ⟨p.priorityIndex, by rw [unindexed]⟩
    | some pi =>
      refine ⟨some (pop pi).1, ?_⟩
      rcases popNext_cases indexed pop with
        ⟨-, result⟩ | ⟨entry, -, ⟨cause, -, result⟩ | ⟨msg, -, result⟩⟩
      all_goals rw [result]
  cases mode with
  | fifo => exact ⟨p.priorityIndex, rfl⟩
  | strictPriority => exact popped _
  | dqnAdaptive => exact popped _

/-- The offset a message was read at, from the offset asked for and the one
returned. -/
def readAt (mode : ScheduleMode) (current next : Nat) : Nat :=
  if mode = .fifo then current else next

theorem next_ok {p p' : Partition} {mode : ScheduleMode} {threshold : Int} {current next : Nat}
    {raw : Message} (success : p.next mode threshold current = (.ok (raw, next), p')) :
    p.read (readAt mode current next) = .ok raw ∧ (mode = .fifo → next = current + 1) := by
  have popped : ∀ pop, p.popNext pop = (.ok (raw, next), p') → p.read next = .ok raw := by
    intro pop success
    cases indexed : p.priorityIndex with
    | none =>
      unfold popNext at success
      rw [indexed] at success
      cases success
    | some pi =>
      rcases popNext_cases indexed pop with
        ⟨-, result⟩ | ⟨entry, -, ⟨cause, -, result⟩ | ⟨msg, read, result⟩⟩
      · rw [result] at success
        cases success
      · rw [result] at success
        cases success
      · rw [result] at success
        cases success
        exact read
  cases mode with
  | fifo =>
    simp only [Partition.next, fifoNext] at success
    split at success
    · cases success
    · split at success
      · cases success
      · rename_i read
        cases success
        exact ⟨read, fun _ => rfl⟩
  | strictPriority => exact ⟨popped _ success, fun fifo => by cases fifo⟩
  | dqnAdaptive => exact ⟨popped _ success, fun fifo => by cases fifo⟩

end Partition

/-! ## Consumer calls -/

namespace Broker

/-- The topic, the partition and a scheduler are there. -/
def Served (b : Broker) (name : Bytes) (partIdx : Int) : Prop :=
  ∃ t p mode, b.topics name = some t ∧ t.partition partIdx = .ok p ∧
    b.schedulers name = some mode

section Consume

variable {b : Broker} {name : Bytes} {mode : ScheduleMode} {t : Topic} {partIdx : Int}
  {p : Partition}

theorem consumeFrom_eq (scheduler : b.schedulers name = some mode) (there : b.topics name = some t)
    (found : t.partition partIdx = .ok p) (offset : Nat) (threshold : Int) :
    b.consumeFrom name partIdx offset threshold =
      (match (p.next mode threshold offset).1 with
       | .error cause => .error (.next cause)
       | .ok (raw, nextOffset) =>
          match b.decompressMessage raw with
          | .error cause => .error (.decompressMessage cause)
          | .ok msg => .ok (msg, nextOffset),
       b.setTopic name (t.setPartition partIdx (p.next mode threshold offset).2)) := by
  unfold consumeFrom
  simp only [there, found, scheduler]
  cases (p.next mode threshold offset).1 with
  | error cause => rfl
  | ok next =>
    dsimp only
    cases b.decompressMessage next.1 <;> rfl

theorem consumeFrom_fifo (fifo : b.schedulers name = some .fifo) (there : b.topics name = some t)
    (found : t.partition partIdx = .ok p) (offset : Nat) (threshold : Int) :
    b.consumeFrom name partIdx offset threshold =
      (match p.fifoNext offset with
       | .error cause => .error (.next cause)
       | .ok (raw, nextOffset) =>
          match b.decompressMessage raw with
          | .error cause => .error (.decompressMessage cause)
          | .ok msg => .ok (msg, nextOffset), b) := by
  rw [consumeFrom_eq fifo there found]
  refine Prod.ext rfl ?_
  dsimp only [Partition.next]
  rw [Topic.setPartition_same found, setTopic_same there]

theorem consumeFrom_refused (unserved : ¬b.Served name partIdx) :
    ∃ cause, cause ≠ .next .noMessages ∧
      ∀ offset threshold, b.consumeFrom name partIdx offset threshold = (.error cause, b) := by
  unfold consumeFrom
  cases there : b.topics name with
  | none => exact ⟨_, by simp, fun _ _ => rfl⟩
  | some t =>
    dsimp only
    cases found : t.partition partIdx with
    | error bounds => exact ⟨_, by simp, fun _ _ => rfl⟩
    | ok p =>
      dsimp only
      cases scheduler : b.schedulers name with
      | none => exact ⟨_, by simp, fun _ _ => rfl⟩
      | some mode => exact absurd ⟨t, p, mode, there, found, scheduler⟩ unserved

theorem consumeFrom_served {b' : Broker} {offset : Nat} {threshold : Int} {next : Message × Nat}
    (success : b.consumeFrom name partIdx offset threshold = (.ok next, b')) :
    b.Served name partIdx := by
  by_contra unserved
  obtain ⟨cause, -, failed⟩ := consumeFrom_refused unserved
  rw [failed] at success
  cases success

theorem consumeFrom_missing (there : b.topics name = some t) {bounds : Int × Nat}
    (missing : t.partition partIdx = .error bounds) (offset : Nat) (threshold : Int) :
    b.consumeFrom name partIdx offset threshold =
      (.error (.partitionOutOfRange bounds.1 bounds.2), b) := by
  unfold consumeFrom
  simp only [there, missing]

end Consume

end Broker

/-- `q` is `p` with another priority index. -/
def Partition.Popped (p q : Partition) : Prop := ∃ pi, q = { p with priorityIndex := pi }

namespace Partition

theorem Popped.refl (p : Partition) : p.Popped p := ⟨p.priorityIndex, rfl⟩

theorem Popped.trans (p q r : Partition) (first : p.Popped q) (second : q.Popped r) :
    p.Popped r := by
  obtain ⟨pi, rfl⟩ := first
  obtain ⟨pi', rfl⟩ := second
  exact ⟨pi', rfl⟩

theorem Popped.grows {p q : Partition} (popped : p.Popped q) : p.Grows q := by
  obtain ⟨pi, rfl⟩ := popped
  exact ⟨rfl, rfl, Nat.le_refl _⟩

theorem Popped.read {p q : Partition} (popped : p.Popped q) (offset : Nat) :
    q.read offset = p.read offset := by
  obtain ⟨pi, rfl⟩ := popped
  rfl

end Partition

namespace Broker

/-! ## A series of calls -/

theorem getLast?_cons_getD {α β : Type} (value : α → β) (first : α) (later : List α) (default : β) :
    ((first :: later).getLast?.map value).getD default =
      (later.getLast?.map value).getD (value first) := by
  rw [List.getLast?_cons, Option.map_some, Option.getD_some]
  cases later.getLast? <;> rfl

/-- What up to `count` calls of `ConsumeFrom` in a row deliver, each message
with the offset returned for the next call; the first error ends the series.
The calls are numbered from `i` on. -/
def fetches (name : Bytes) (partIdx : Int) (threshold : Nat → Int) :
    Nat → Nat → Broker → Nat → List (Message × Nat) × Broker
  | 0, _, b, _ => ([], b)
  | count + 1, i, b, offset =>
      match b.consumeFrom name partIdx offset (threshold i) with
      | (.error _, b') => ([], b')
      | (.ok next, b') =>
          let later := fetches name partIdx threshold count (i + 1) b' next.2
          (next :: later.1, later.2)

section Series

variable {name : Bytes} {partIdx : Int} {threshold : Nat → Int} {b b' : Broker} {offset i : Nat}

theorem fetches_error {cause : ConsumeError}
    (failed : b.consumeFrom name partIdx offset (threshold i) = (.error cause, b'))
    (count : Nat) : fetches name partIdx threshold (count + 1) i b offset = ([], b') := by
  unfold fetches
  rw [failed]

theorem fetches_ok {next : Message × Nat}
    (success : b.consumeFrom name partIdx offset (threshold i) = (.ok next, b')) (count : Nat) :
    fetches name partIdx threshold (count + 1) i b offset =
      (next :: (fetches name partIdx threshold count (i + 1) b' next.2).1,
        (fetches name partIdx threshold count (i + 1) b' next.2).2) := by
  rw [fetches, success]

theorem fetches_invariant {I : Broker → Prop} {P : Message × Nat → Prop}
    (step : ∀ (b : Broker) (offset i : Nat), I b →
      I (b.consumeFrom name partIdx offset (threshold i)).2 ∧
        ∀ next, (b.consumeFrom name partIdx offset (threshold i)).1 = .ok next → P next)
    (count : Nat) : ∀ (i : Nat) (b : Broker) (offset : Nat), I b →
      I (fetches name partIdx threshold count i b offset).2 ∧
        ∀ next ∈ (fetches name partIdx threshold count i b offset).1, P next := by
  induction count with
  | zero =>
    intro i b offset inv
    exact ⟨inv, List.forall_mem_nil P⟩
  | succ count ih =>
    intro i b offset inv
    obtain ⟨kept, good⟩ := step b offset i inv
    cases outcome : b.consumeFrom name partIdx offset (threshold i) with
    | mk result b' =>
      rw [outcome] at kept good
      cases result with
      | error cause =>
        rw [fetches_error outcome]
        exact ⟨kept, List.forall_mem_nil P⟩
      | ok next =>
        rw [fetches_ok outcome]
        obtain ⟨later, rest⟩ := ih (i + 1) b' next.2 kept
        exact ⟨later, List.forall_mem_cons.mpr ⟨good next rfl, rest⟩⟩

theorem consumeLoop_fetches (name : Bytes) (partIdx : Int) (threshold : Nat → Int) (fuel : Nat) :
    ∀ (i : Nat) (b : Broker) (offset : Nat) (msgs : List Message) (last : Nat),
    let series := fetches name partIdx threshold fuel i b offset
    let ended := consumeLoop name partIdx threshold fuel i b offset msgs last
    ended.2 = series.2 ∧
      (ended.1 = .ok (msgs ++ series.1.map Prod.fst,
          (series.1.getLast?.map Prod.snd).getD last) ∨
        (msgs = [] ∧ series.1 = [] ∧ ∃ cause, ended.1 = .error cause)) := by
  induction fuel with
  | zero =>
    intro i b offset msgs last
    refine ⟨rfl, .inl ?_⟩
    simp only [consumeLoop, fetches, List.map_nil, List.append_nil, List.getLast?_nil,
      Option.map_none, Option.getD_none]
  | succ fuel ih =>
    intro i b offset msgs last
    dsimp only
    unfold consumeLoop
    cases outcome : b.consumeFrom name partIdx offset (threshold i) with
    | mk result b' =>
      cases result with
      | error cause =>
        rw [fetches_error outcome]
        dsimp only
        rw [List.map_nil, List.append_nil, List.getLast?_nil, Option.map_none,
          Option.getD_none]
        split
        · exact ⟨rfl, .inl rfl⟩
        · split
          · exact ⟨rfl, .inl rfl⟩
          · rename_i empty
            exact ⟨rfl, .inr ⟨not_not.mp empty, rfl, cause, rfl⟩⟩
      | ok next =>
        rw [fetches_ok outcome, getLast?_cons_getD]
        obtain ⟨broker, collected | ⟨impossible, -⟩⟩ :=
          ih (i + 1) b' next.2 (msgs ++ [next.1]) next.2
        · refine ⟨broker, .inl ?_⟩
          rw [List.append_assoc] at collected
          exact collected
        · simp at impossible

end Series

section Batch

variable {name : Bytes} {mode : ScheduleMode} {partIdx : Int}

variable {b : Broker} {t : Topic}

theorem consumeFrom_popped (scheduler : b.schedulers name = some mode)
    (there : b.topics name = some t) (partIdx : Int) (offset : Nat) (threshold : Int) :
    ∃ t', t.Related Partition.Popped t' ∧
      (b.consumeFrom name partIdx offset threshold).2 = b.setTopic name t' := by
  cases found : t.partition partIdx with
  | error bounds =>
    rw [consumeFrom_missing there found]
    exact ⟨t, .refl Partition.Popped.refl t, (setTopic_same there).symm⟩
  | ok p =>
    rw [consumeFrom_eq scheduler there found]
    exact ⟨_, .setPartition Partition.Popped.refl found (p.next_partition mode threshold offset),
      rfl⟩

/-- The offsets that the loop of `ConsumeBatch` reads its messages from. -/
def consumedOffsets (mode : ScheduleMode) (name : Bytes) (partIdx : Int) (threshold : Nat → Int) :
    Nat → Nat → Broker → Nat → List Nat
  | 0, _, _, _ => []
  | fuel + 1, i, b, current =>
      match b.consumeFrom name partIdx current (threshold i) with
      | (.error _, _) => []
      | (.ok (_, next), b') => Partition.readAt mode current next ::
          consumedOffsets mode name partIdx threshold fuel (i + 1) b' next

theorem consumeFrom_ok {b' : Broker} (scheduler : b.schedulers name = some mode)
    (there : b.topics name = some t) {p : Partition} (found : t.partition partIdx = .ok p)
    {current next : Nat} {threshold : Int} {msg : Message}
    (success : b.consumeFrom name partIdx current threshold = (.ok (msg, next), b')) :
    (∃ raw, p.read (Partition.readAt mode current next) = .ok raw ∧
      b.decompressMessage raw = .ok msg) ∧ (mode = .fifo → next = current + 1) := by
  rw [consumeFrom_eq scheduler there found] at success
  obtain ⟨result, -⟩ := Prod.mk.inj success
  cases outcome : p.next mode threshold current with
  | mk returned p' =>
    rw [outcome] at result
    cases returned with
    | error cause => cases result
    | ok pair =>
      dsimp only at result
      obtain ⟨read, fifo⟩ := Partition.next_ok outcome
      cases decompressed : b.decompressMessage pair.1 with
      | error cause =>
        rw [decompressed] at result
        cases result
      | ok m =>
        rw [decompressed] at result
        cases result
        exact ⟨⟨pair.1, read, decompressed⟩, fifo⟩

theorem fetches_popped (scheduler : b.schedulers name = some mode) (there : b.topics name = some t)
    (partIdx : Int) (threshold : Nat → Int) (count i offset : Nat) :
    ∃ t', t.Related Partition.Popped t' ∧
      (fetches name partIdx threshold count i b offset).2 = b.setTopic name t' := by
  refine (fetches_invariant
    (I := fun b' => ∃ t', t.Related Partition.Popped t' ∧ b' = b.setTopic name t')
    (P := fun _ => True) ?_ count i b offset
    ⟨t, .refl Partition.Popped.refl t, (setTopic_same there).symm⟩).1
  rintro _ offset i ⟨t', popped, rfl⟩
  obtain ⟨t'', later, after⟩ := consumeFrom_popped (b := b.setTopic name t') scheduler
    (setTopic_topics_self ..) partIdx offset (threshold i)
  refine ⟨⟨t'', popped.trans Partition.Popped.trans later, ?_⟩, fun _ _ => trivial⟩
  rw [after, setTopic_setTopic]

/-- The messages of a series are those at the offsets listed; under the FIFO scheduler
these follow each other. -/
theorem fetches_reads (threshold : Nat → Int) (count : Nat) :
    ∀ (i : Nat) (b : Broker) (t : Topic) (p : Partition) (current : Nat),
      b.schedulers name = some mode → b.topics name = some t → t.partition partIdx = .ok p →
      let series := (fetches name partIdx threshold count i b current).1
      let offsets := consumedOffsets mode name partIdx threshold count i b current
      List.Forall₂ (fun offset next => ∃ raw, p.read offset = .ok raw ∧
        b.decompressMessage raw = .ok (Prod.fst next)) offsets series ∧
      (mode = .fifo → offsets = List.range' current series.length ∧
        (series.getLast?.map Prod.snd).getD current = current + series.length) := by
  induction count with
  | zero =>
    intro i b t p current _ _ _
    exact ⟨.nil, fun _ => ⟨rfl, rfl⟩⟩
  | succ count ih =>
    intro i b t p current scheduler there found
    obtain ⟨t', popped, after⟩ := consumeFrom_popped scheduler there partIdx current (threshold i)
    obtain ⟨p', found', pop⟩ := popped.forward partIdx p found
    dsimp only
    unfold consumedOffsets
    cases outcome : b.consumeFrom name partIdx current (threshold i) with
    | mk result b' =>
      rw [outcome] at after
      dsimp only at after
      subst after
      cases result with
      | error cause =>
        rw [fetches_error outcome]
        exact ⟨.nil, fun _ => ⟨rfl, rfl⟩⟩
      | ok next =>
        obtain ⟨first, following⟩ := consumeFrom_ok scheduler there found outcome
        obtain ⟨reads, fifo⟩ := ih (i + 1) (b.setTopic name t') t' p' next.2 scheduler
          (setTopic_topics_self ..) found'
        simp only [pop.read] at reads
        rw [fetches_ok outcome]
        refine ⟨.cons first reads, fun fifoMode => ?_⟩
        obtain ⟨offsets, ending⟩ := fifo fifoMode
        have step := following fifoMode
        dsimp only
        rw [offsets, getLast?_cons_getD, ending, step, Partition.readAt, if_pos fifoMode,
          List.length_cons, List.range'_succ]
        exact ⟨rfl, by omega⟩

/-- The offsets of the messages of a whole `ConsumeBatch`. -/
def batchOffsets (mode : ScheduleMode) (b : Broker) (name group : Bytes) (partIdx : Int)
    (maxMessages : Int) (env : ConsumeEnv) : List Nat :=
  consumedOffsets mode name partIdx env.threshold maxMessages.toNat 0 b
    (b.startOffset group name partIdx)

/-- What `ConsumeBatch` makes of a series: it returns the messages and commits
the offset after the last one. -/
structure Collected (group name : Bytes) (partIdx : Int) (env : ConsumeEnv)
    (series : List (Message × Nat) × Broker) (batch : ConsumeResult × Broker) : Prop where
  msgs : batch.1.msgs = series.1.map Prod.fst
  idle : series.1 = [] → batch.2 = series.2
  commits : ∀ last, series.1.getLast? = some last → batch.2 =
    (series.2.commit group name partIdx (int64OfOffset last.2) env.now env.written).2

theorem consumeBatch_collected (b : Broker) (name group : Bytes) (partIdx : Int)
    (maxMessages : Int) (env : ConsumeEnv) :
    Collected group name partIdx env
      (fetches name partIdx env.threshold maxMessages.toNat 0 b (b.startOffset group name partIdx))
      (b.consumeBatch name group partIdx maxMessages env) := by
  obtain ⟨broker, collected⟩ := consumeLoop_fetches name partIdx env.threshold maxMessages.toNat 0 b
    (b.startOffset group name partIdx) [] 0
  unfold consumeBatch
  dsimp only at broker collected ⊢
  generalize fetches name partIdx env.threshold maxMessages.toNat 0 b
    (b.startOffset group name partIdx) = series at broker collected ⊢
  cases ran : consumeLoop name partIdx env.threshold maxMessages.toNat 0 b
      (b.startOffset group name partIdx) [] 0 with
  | mk result after =>
    obtain ⟨messages, last⟩ := series
    rw [ran] at broker collected
    obtain rfl : after = last := broker
    rcases collected with success | ⟨-, empty, cause, failed⟩
    · obtain rfl : result = .ok _ := success
      cases messages with
      | nil => exact ⟨rfl, fun _ => rfl, fun _ impossible => by cases impossible⟩
      | cons first later =>
        generalize value : ((first :: later).getLast?.map Prod.snd).getD 0 = lastOffset
        cases committed : after.commit group name partIdx (int64OfOffset lastOffset) env.now
            env.written with
        | mk answer b'' =>
          have commits : ∀ last, (first :: later).getLast? = some last → b'' =
              (after.commit group name partIdx (int64OfOffset last.2) env.now
                env.written).2 := by
            intro last ends
            rw [ends, Option.map_some, Option.getD_some] at value
            rw [value, committed]
          simp only [List.nil_append, List.map_cons, committed]
          cases answer <;> exact ⟨rfl, (fun impossible => by cases impossible), commits⟩
    · obtain rfl : result = .error cause := failed
      obtain rfl : messages = [] := empty
      exact ⟨rfl, fun _ => rfl, fun _ impossible => by cases impossible⟩

/-- What `ConsumeBatch` leaves behind: other priority indexes and, if there are
messages to return, a committed offset. -/
theorem consumeBatch_broker (scheduler : b.schedulers name = some mode)
    (there : b.topics name = some t) {store : OffsetStore} (stored : b.offsetStore = some store)
    {p : Partition} (found : t.partition partIdx = .ok p) (group : Bytes) (maxMessages : Int)
    (env : ConsumeEnv) :
    ∃ t', t.Related Partition.Popped t' ∧
      ((b.consumeBatch name group partIdx maxMessages env).2 = b.setTopic name t' ∨
      ∃ last, (b.consumeBatch name group partIdx maxMessages env).2 =
          { b.setTopic name t' with
            offsetStore := some (store.commit group name partIdx (int64OfOffset last) env.now
              env.written).2 } ∧
        (mode = .fifo → ∃ n, 0 < n ∧ last = b.startOffset group name partIdx + n ∧
          last ≤ p.log.nextIndex ∧ batchOffsets mode b name group partIdx maxMessages env =
            List.range' (b.startOffset group name partIdx) n)) := by
  have collected := b.consumeBatch_collected name group partIdx maxMessages env
  obtain ⟨t', popped, after⟩ := fetches_popped scheduler there partIdx env.threshold
    maxMessages.toNat 0 (b.startOffset group name partIdx)
  obtain ⟨reads, fifo⟩ := fetches_reads env.threshold maxMessages.toNat 0 b t p
    (b.startOffset group name partIdx) scheduler there found
  generalize fetches name partIdx env.threshold maxMessages.toNat 0 b
    (b.startOffset group name partIdx) = series at collected after reads fifo
  refine ⟨t', popped, ?_⟩
  cases ends : series.1.getLast? with
  | none => exact .inl ((collected.idle (List.getLast?_eq_none_iff.mp ends)).trans after)
  | some last =>
    refine .inr ⟨last.2, ?_, ?_⟩
    · rw [collected.commits last ends, after, commit, setTopic_offsetStore, stored]
    · intro fifoMode
      obtain ⟨offsets, ending⟩ := fifo fifoMode
      have positive : 0 < series.1.length :=
        List.length_pos_of_mem (List.mem_of_getLast? ends)
      rw [ends, Option.map_some, Option.getD_some] at ending
      refine ⟨series.1.length, positive, ending, ?_, offsets⟩
      -- the last of the offsets has been read, so it lies in the log
      rw [offsets] at reads
      obtain ⟨raw, read, -⟩ := reads.get (i := series.1.length - 1)
        (by rw [List.length_range']; omega) (by omega)
      have inside := (Partition.read_bounds read).2
      rw [List.get_eq_getElem, List.getElem_range'] at inside
      dsimp only at inside
      rw [ending]
      omega

theorem consumeBatch_missing (there : b.topics name = some t) {bounds : Int × Nat}
    (missing : t.partition partIdx = .error bounds) (mode : ScheduleMode) (group : Bytes)
    (maxMessages : Int) (env : ConsumeEnv) :
    (b.consumeBatch name group partIdx maxMessages env).2 = b ∧
      batchOffsets mode b name group partIdx maxMessages env = [] := by
  unfold consumeBatch batchOffsets
  cases maxMessages.toNat with
  | zero => exact ⟨rfl, rfl⟩
  | succ fuel =>
    unfold consumeLoop consumedOffsets
    simp only [consumeFrom_missing there missing]
    exact ⟨rfl, trivial⟩

end Batch

end Broker

end NyaQueue
