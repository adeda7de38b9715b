import NyaQueue.Consume
import NyaQueue.PriorityAccounting

/-!
# Deliveries that fail

A priority scheduler pops the index first and reads the record afterwards, and
`ConsumeFrom` decompresses the value after that.  When either fails the entry is
gone, and nothing puts it back.  The entry that is due is described here without
the pop, from what the levels hold.
-/

set_option autoImplicit false

namespace NyaQueue

namespace PriorityIndex

/-- The oldest entry of the first of the levels that has one. -/
def frontOf (pi : PriorityIndex) (levels : List Level) : Option PendingEntry :=
  levels.findSome? fun p => (pi.contents p).head?

/-- The entry that the scheduler of a mode is to deliver next; FIFO delivers
none from the index. -/
def due (pi : PriorityIndex) (threshold : Int) : ScheduleMode → Option PendingEntry
  | .fifo => none
  | .strictPriority => pi.frontOf (levelsDownTo 0)
  | .dqnAdaptive =>
      (pi.frontOf (levelsDownTo threshold)).or
        ((pi.oldestFront none (levelsBelow threshold)).bind fun best => (pi.contents best.1).head?)

theorem popFirst_front (pi : PriorityIndex) (tried : List Level) :
    (pi.popFirst tried).2 = pi.frontOf tried := by
  induction tried with
  | nil => rfl
  | cons p rest ih =>
    rw [frontOf, List.findSome?_cons]
    cases queued : pi.contents p with
    | nil =>
      rw [popFirst, PriorityLevel.pop_of_empty queued]
      exact ih
    | cons e others =>
      obtain ⟨front, -⟩ := PriorityLevel.pop_of_cons queued
      simp only [popFirst, front, List.head?_cons]

theorem popWithThreshold_due (pi : PriorityIndex) (threshold : Int) :
    (pi.popWithThreshold threshold).2 = pi.due threshold .dqnAdaptive := by
  have high := pi.popFirst_front (levelsDownTo threshold)
  unfold popWithThreshold due
  dsimp only
  rw [← high]
  cases (pi.popFirst (levelsDownTo threshold)).2 with
  | some e => rfl
  | none =>
    dsimp only
    rw [Option.none_or]
    cases found : pi.oldestFront none (levelsBelow threshold) with
    | none => rfl
    | some best =>
      obtain ⟨p, arrivedAt⟩ := best
      rcases pi.oldestFront_queued _ none p arrivedAt found with impossible | ⟨e, rest, queued⟩
      · cases impossible
      · dsimp only [Option.bind_some]
        rw [(PriorityLevel.pop_of_cons queued).1, queued]
        rfl

theorem TakesFront.changes {pi : PriorityIndex} {result : PriorityIndex × Option PendingEntry}
    (pops : pi.TakesFront result) {e : PendingEntry} (popped : result.2 = some e) :
    result.1 ≠ pi := by
  intro same
  have taken := congrArg Multiset.card (pops.pending popped)
  rw [same, Multiset.card_add, Multiset.card_singleton] at taken
  omega

end PriorityIndex

namespace Partition

/-- The due entry of the index, if the partition has one. -/
def due (p : Partition) (mode : ScheduleMode) (threshold : Int) : Option PendingEntry :=
  p.priorityIndex.bind fun pi => pi.due threshold mode

/-- The record of a due entry can be read. -/
def DueReadable (p : Partition) (mode : ScheduleMode) (threshold : Int) : Prop :=
  ∀ entry, p.due mode threshold = some entry →
    ∃ raw, p.read (offsetOfInt64 entry.walOffset) = .ok raw

/-- The two things a scheduler can meet: nothing due, and then it changes
nothing, or a due entry, which leaves the index whatever the read says. -/
def Meets (p : Partition) (due : Option PendingEntry) (result : NextResult × Partition) : Prop :=
  (due = none ∧ result.2 = p) ∨
  ∃ entry, due = some entry ∧ result.2.priorityIndex ≠ p.priorityIndex ∧
    ((∃ cause, p.read (offsetOfInt64 entry.walOffset) = .error cause ∧
      result.1 = .error (.read cause)) ∨
    ∃ raw, p.read (offsetOfInt64 entry.walOffset) = .ok raw ∧
      result.1 = .ok (raw, offsetOfInt64 entry.walOffset))

theorem popNext_meets (p : Partition) (pop : PriorityIndex → PriorityIndex × Option PendingEntry)
    (pops : ∀ pi : PriorityIndex, pi.TakesFront (pop pi)) :
    p.Meets (p.priorityIndex.bind fun pi => (pop pi).2) (p.popNext pop) := by
  cases indexed : p.priorityIndex with
  | none =>
    refine .inl ⟨rfl, ?_⟩
    unfold popNext
    rw [indexed]
  | some pi =>
    have leaves : ∀ entry, (pop pi).2 = some entry → some (pop pi).1 ≠ some pi := by
      intro entry popped same
      exact (pops pi).changes popped (Option.some.inj same)
    rcases popNext_cases indexed pop with
      ⟨nothing, result⟩ | ⟨entry, popped, ⟨cause, read, result⟩ | ⟨raw, read, result⟩⟩
    · refine .inl ⟨nothing, ?_⟩
      rw [result]
      dsimp only
      rw [(pops pi).none nothing, ← indexed]
    · rw [result]
      exact .inr ⟨entry, popped, indexed ▸ leaves entry popped, .inl ⟨cause, read, rfl⟩⟩
    · rw [result]
      exact .inr ⟨entry, popped, indexed ▸ leaves entry popped, .inr ⟨raw, read, rfl⟩⟩

theorem next_meets (p : Partition) (mode : ScheduleMode) (threshold : Int) (offset : Nat) :
    p.Meets (p.due mode threshold) (p.next mode threshold offset) := by
  cases mode with
  | fifo =>
    refine .inl ⟨?_, rfl⟩
    unfold due
    cases p.priorityIndex <;> rfl
  | strictPriority =>
    have meets := p.popNext_meets PriorityIndex.popHighest
      fun pi => pi.popFirst_takesFront (levelsDownTo 0)
    have fronts : (fun pi : PriorityIndex => pi.popHighest.2) =
        fun pi => pi.due threshold .strictPriority :=
      funext fun pi => pi.popFirst_front (levelsDownTo 0)
    rw [fronts] at meets
    exact meets
  | dqnAdaptive =>
    have meets := p.popNext_meets (fun pi => pi.popWithThreshold threshold)
      fun pi => pi.popWithThreshold_takesFront threshold
    have fronts : (fun pi : PriorityIndex => (pi.popWithThreshold threshold).2) =
        fun pi => pi.due threshold .dqnAdaptive :=
      funext fun pi => pi.popWithThreshold_due threshold
    rw [fronts] at meets
    exact meets

theorem next_keeps_index_iff (p : Partition) (mode : ScheduleMode) (threshold : Int)
    (offset : Nat) :
    (∀ cause, (p.next mode threshold offset).1 = .error cause →
      (p.next mode threshold offset).2.priorityIndex = p.priorityIndex) ↔
    p.DueReadable mode threshold := by
  rcases p.next_meets mode threshold offset with
    ⟨nothing, same⟩ | ⟨entry, found, left, ⟨cause, read, failed⟩ | ⟨raw, read, success⟩⟩
  · constructor
    · intro _ entry found
      rw [nothing] at found
      cases found
    · intro _ cause _
      rw [same]
  · constructor
    · intro keeps
      exact absurd (keeps _ failed) left
    · intro readable
      obtain ⟨raw, success⟩ := readable entry found
      rw [read] at success
      cases success
  · constructor
    · intro _ entry' found'
      rw [found] at found'
      cases found'
      exact ⟨raw, read⟩
    · intro _ cause failed
      rw [success] at failed
      cases failed

end Partition

namespace Broker

/-- The priority index of a partition of a topic. -/
def indexOf (b : Broker) (name : Bytes) (partIdx : Int) : Option PriorityIndex :=
  match b.topics name with
  | none => none
  | some t =>
      match t.partition partIdx with
      | .error _ => none
      | .ok p => p.priorityIndex

/-- What a consumer of the partition is due can be read and decompressed. -/
def DueDeliverable (b : Broker) (name : Bytes) (partIdx : Int) (threshold : Int) : Prop :=
  ∀ t p mode, b.topics name = some t → t.partition partIdx = .ok p →
    b.schedulers name = some mode → ∀ entry, p.due mode threshold = some entry →
      ∃ raw msg, p.read (offsetOfInt64 entry.walOffset) = .ok raw ∧
        b.decompressMessage raw = .ok msg

variable {t : Topic} {partIdx : Int} {p : Partition}

theorem indexOf_eq {b : Broker} {name : Bytes} (there : b.topics name = some t)
    (found : t.partition partIdx = .ok p) :
    b.indexOf name partIdx = p.priorityIndex := by
  simp only [indexOf, there, found]

theorem indexOf_setTopic (found : t.partition partIdx = .ok p) (b : Broker) (name : Bytes)
    (q : Partition) :
    (b.setTopic name (t.setPartition partIdx q)).indexOf name partIdx = q.priorityIndex :=
  indexOf_eq (setTopic_topics_self ..) (Topic.partition_setPartition_self found q)

theorem dueDeliverable_iff {b : Broker} {name : Bytes} {mode : ScheduleMode}
    (there : b.topics name = some t) (found : t.partition partIdx = .ok p)
    (scheduler : b.schedulers name = some mode) (threshold : Int) :
    b.DueDeliverable name partIdx threshold ↔
      ∀ entry, p.due mode threshold = some entry →
        ∃ raw msg, p.read (offsetOfInt64 entry.walOffset) = .ok raw ∧
          b.decompressMessage raw = .ok msg := by
  constructor
  · intro deliverable
    exact deliverable t p mode there found scheduler
  · intro deliverable t' p' mode' there' found' scheduler'
    cases there.symm.trans there'
    cases found.symm.trans found'
    cases scheduler.symm.trans scheduler'
    exact deliverable

theorem consumeFrom_keeps_index_iff (b : Broker) (name : Bytes) (partIdx : Int) (offset : Nat)
    (threshold : Int) :
    (∀ cause, (b.consumeFrom name partIdx offset threshold).1 = .error cause →
      (b.consumeFrom name partIdx offset threshold).2.indexOf name partIdx =
        b.indexOf name partIdx) ↔
    b.DueDeliverable name partIdx threshold := by
  by_cases served : b.Served name partIdx
  · obtain ⟨t, p, mode, there, found, scheduler⟩ := served
    rw [dueDeliverable_iff there found scheduler, consumeFrom_eq scheduler there found,
      indexOf_setTopic found, indexOf_eq there found]
    rcases p.next_meets mode threshold offset with
      ⟨nothing, same⟩ | ⟨entry, due, left, ⟨cause, read, failed⟩ | ⟨raw, read, success⟩⟩
    · rw [nothing, same]
      exact ⟨fun _ _ impossible => (Option.some_ne_none _ impossible.symm).elim, fun _ _ _ => rfl⟩
    · rw [failed]
      constructor
      · intro keeps
        exact absurd (keeps _ rfl) left
      · intro deliverable
        obtain ⟨raw, msg, success, -⟩ := deliverable entry due
        rw [read] at success
        cases success
    · rw [success]
      dsimp only
      cases decompressed : b.decompressMessage raw with
      | error cause =>
        constructor
        · intro keeps
          exact absurd (keeps _ rfl) left
        · intro deliverable
          obtain ⟨raw', msg, read', whole⟩ := deliverable entry due
          cases read.symm.trans read'
          rw [decompressed] at whole
          cases whole
      | ok msg =>
        constructor
        · intro _ entry' due'
          cases due.symm.trans due'
          exact ⟨raw, msg, read, decompressed⟩
        · intro _ cause impossible
          cases impossible
  · obtain ⟨cause, -, failed⟩ := consumeFrom_refused served
    rw [failed]
    constructor
    · intro _ t p mode there found scheduler
      exact absurd ⟨t, p, mode, there, found, scheduler⟩ served
    · intro _ _ _
      rfl

/-- A failed delivery keeps the index exactly when the entry that is due can be
read, for `Next`, and can be read and decompressed, for `ConsumeFrom`. -/
theorem failed_delivery_keeps_index_iff (b : Broker) (name : Bytes) (partIdx : Int) (offset : Nat)
    (threshold : Int) (p : Partition) (mode : ScheduleMode) :
    ((∀ cause, (p.next mode threshold offset).1 = .error cause →
        (p.next mode threshold offset).2.priorityIndex = p.priorityIndex) ↔
      p.DueReadable mode threshold) ∧
    ((∀ cause, (b.consumeFrom name partIdx offset threshold).1 = .error cause →
        (b.consumeFrom name partIdx offset threshold).2.indexOf name partIdx =
          b.indexOf name partIdx) ↔
      b.DueDeliverable name partIdx threshold) :=
  ⟨p.next_keeps_index_iff mode threshold offset,
    b.consumeFrom_keeps_index_iff name partIdx offset threshold⟩

/-- A topic of strict priority with one acknowledged message, of priority 255. -/
def misreadMessage : Broker :=
  let b := Broker.new sampleLibrary defaultConfig none
  let b := (b.createTopic [116] .strictPriority [Log.empty]).getD b
  (b.publish [116] (sampleMessage 255 7 118) ⟨0, false, 8, steadyEnv 9⟩).2.2

/-- The offsets that wait at a level of the only partition. -/
def waiting (b : Broker) (level : Level) : Option (List Int64) :=
  (b.indexOf [116] 0).map fun pi => (pi.contents level).map PendingEntry.walOffset

/-- The record is taken for a redirect to offset 7, the first `ConsumeFrom`
fails on it, and the second has nothing left to deliver. -/
theorem failed_delivery_consumes_message :
    let first := misreadMessage.consumeFrom [116] 0 1 0
    let second := first.2.consumeFrom [116] 0 1 0
    first.1 = .error (.next (.read (.walReadBatch 7 .notFound))) ∧
    second.1 = .error (.next .noMessages) ∧
    misreadMessage.waiting 9 = some [1] ∧ first.2.waiting 9 = some [] ∧
    first.2.indexOf [116] 0 ≠ misreadMessage.indexOf [116] 0 := by
  intro first second
  have outcome : first.1 = .error (.next (.read (.walReadBatch 7 .notFound))) ∧
      second.1 = .error (.next .noMessages) ∧
      misreadMessage.waiting 9 = some [1] ∧ first.2.waiting 9 = some [] := by decide +kernel
  obtain ⟨failed, drained, before, after⟩ := outcome
  refine ⟨failed, drained, before, after, ?_⟩
  intro same
  rw [waiting, same, ← waiting, before] at after
  cases after

end Broker

end NyaQueue
