import NyaQueue.FetchLimit
import NyaQueue.Consume
import NyaQueue.PriorityThreshold

/-!
# `ConsumeBatch` and the consume handler

Both loops are a series of `ConsumeFrom` calls that the first error ends.  The
series is described by itself; each loop is shown to collect what it delivers,
and then they are compared: they differ in the offset they start from without an
offset store, and in when they commit.
-/

set_option autoImplicit false

namespace NyaQueue

/-! ## Asking an empty queue again -/

theorem PriorityIndex.popWithThreshold_toNat (pi : PriorityIndex) (threshold : Int) :
    pi.popWithThreshold threshold = pi.popWithThreshold threshold.toNat := by
  have down : levelsDownTo threshold = levelsDownTo threshold.toNat := by
    unfold levelsDownTo
    congr 1
    funext p
    rw [decide_eq_decide]
    omega
  have below : levelsBelow threshold = levelsBelow threshold.toNat := by
    unfold levelsBelow
    congr 1
    funext p
    rw [decide_eq_decide]
    omega
  unfold popWithThreshold
  rw [down, below]

namespace Partition

variable {p : Partition} {pop : PriorityIndex → PriorityIndex × Option PendingEntry}

theorem popNext_nothing {pi : PriorityIndex} (indexed : p.priorityIndex = some pi)
    (pops : pi.TakesFront (pop pi)) (nothing : (pop pi).2 = none) :
    p.popNext pop = (.error .noMessages, p) := by
  rcases popNext_cases indexed pop with ⟨-, result⟩ | ⟨entry, popped, -⟩
  · rw [result, pops.none nothing, ← indexed]
  · rw [nothing] at popped
    cases popped

theorem popNext_noMessages (nothing : (p.popNext pop).1 = .error .noMessages) :
    ∃ pi, p.priorityIndex = some pi ∧ (pop pi).2 = none := by
  cases indexed : p.priorityIndex with
  | none =>
    unfold popNext at nothing
    rw [indexed] at nothing
    cases nothing
  | some pi =>
    refine ⟨pi, rfl, ?_⟩
    rcases popNext_cases indexed pop with
      ⟨empty, -⟩ | ⟨entry, -, ⟨cause, -, result⟩ | ⟨msg, -, result⟩⟩
    · exact empty
    · rw [result] at nothing
      cases nothing
    · rw [result] at nothing
      cases nothing

theorem next_noMessages {mode : ScheduleMode} {threshold : Int} {offset : Nat}
    (nothing : (p.next mode threshold offset).1 = .error .noMessages) (threshold' : Int) :
    p.next mode threshold' offset = (.error .noMessages, p) := by
  cases mode with
  | fifo => exact Prod.ext nothing rfl
  | strictPriority =>
    obtain ⟨pi, indexed, empty⟩ := popNext_noMessages nothing
    exact popNext_nothing indexed (pi.popFirst_takesFront _) empty
  | dqnAdaptive =>
    obtain ⟨pi, indexed, empty⟩ := popNext_noMessages nothing
    rw [pi.popWithThreshold_toNat, pi.popWithThreshold_none_iff] at empty
    refine popNext_nothing indexed (pi.popWithThreshold_takesFront threshold') ?_
    rw [pi.popWithThreshold_toNat, pi.popWithThreshold_none_iff]
    exact empty

end Partition

namespace Broker

theorem consumeFrom_noMessages {b : Broker} {name : Bytes} {partIdx : Int} {offset : Nat}
    {threshold : Int}
    (nothing : (b.consumeFrom name partIdx offset threshold).1 = .error (.next .noMessages))
    (threshold' : Int) :
    b.consumeFrom name partIdx offset threshold' = (.error (.next .noMessages), b) := by
  by_cases served : b.Served name partIdx
  · obtain ⟨t, p, mode, there, found, scheduler⟩ := served
    rw [consumeFrom_eq scheduler there found] at nothing
    dsimp only at nothing
    have none : (p.next mode threshold offset).1 = .error .noMessages := by
      cases returned : (p.next mode threshold offset).1 with
      | error cause =>
        rw [returned] at nothing
        cases nothing
        rfl
      | ok next =>
        rw [returned] at nothing
        dsimp only at nothing
        cases decompressed : b.decompressMessage next.1 with
        | error cause =>
          rw [decompressed] at nothing
          cases nothing
        | ok msg =>
          rw [decompressed] at nothing
          cases nothing
    rw [consumeFrom_eq scheduler there found, Partition.next_noMessages none threshold']
    dsimp only
    rw [Topic.setPartition_same found, setTopic_same there]
  · obtain ⟨cause, other, failed⟩ := consumeFrom_refused served
    rw [failed] at nothing
    cases nothing
    exact absurd rfl other

theorem consumeFrom_offsetStore (b : Broker) (name : Bytes) (partIdx : Int) (offset : Nat)
    (threshold : Int) :
    (b.consumeFrom name partIdx offset threshold).2.offsetStore = b.offsetStore := by
  by_cases served : b.Served name partIdx
  · obtain ⟨t, p, mode, there, found, scheduler⟩ := served
    rw [consumeFrom_eq scheduler there found]
    rfl
  · obtain ⟨cause, -, failed⟩ := consumeFrom_refused served
    rw [failed]

/-! ## A series of calls -/

section Series

variable {name : Bytes} {partIdx : Int} {threshold : Nat → Int} {b : Broker} {offset : Nat}

theorem fetches_nothing {threshold' : Int}
    (nothing : (b.consumeFrom name partIdx offset threshold').1 = .error (.next .noMessages))
    (count i : Nat) : fetches name partIdx threshold count i b offset = ([], b) := by
  cases count with
  | zero => rfl
  | succ count => exact fetches_error (consumeFrom_noMessages nothing (threshold i)) count

theorem fetches_offsetStore (b : Broker) (offset count i : Nat) :
    (fetches name partIdx threshold count i b offset).2.offsetStore = b.offsetStore :=
  (fetches_invariant (I := fun b' => b'.offsetStore = b.offsetStore) (P := fun _ => True)
    (fun b' offset i kept => ⟨(b'.consumeFrom_offsetStore name partIdx offset (threshold i)).trans
      kept, fun _ _ => trivial⟩) count i b offset rfl).1

end Series

end Broker

/-! ## The loop of the handler -/

/-- The bytes of the messages that count towards the limit of a fetch. -/
def fetchedBytes (messages : List (Message × Nat)) : Nat :=
  (messages.map fun next => next.1.key.length + next.1.value.length).sum

/-- A fetch that has collected `total` bytes goes on for exactly `k` messages:
all but the last one leave room, and after the last one there is none. -/
structure Admits (maxBytes : Int) (total k : Nat) (messages : List (Message × Nat)) : Prop where
  room : ∀ j < k, ((total + fetchedBytes (messages.take j) : Nat) : Int) < maxBytes
  reached : messages.length = k → maxBytes ≤ (total + fetchedBytes messages : Nat)

/-- Nobody else works on the broker between the rounds, and their calls meet
the thresholds given, from call `i` on. -/
def Undisturbed (threshold : Nat → Int) (i : Nat) (rounds : List ConsumeRound) : Prop :=
  ∀ (j : Nat) (round : ConsumeRound), rounds[j]? = some round →
    round.others = id ∧ round.threshold = threshold (i + j)

theorem Undisturbed.tail {threshold : Nat → Int} {i : Nat} {round : ConsumeRound}
    {rest : List ConsumeRound} (undisturbed : Undisturbed threshold i (round :: rest)) :
    Undisturbed threshold (i + 1) rest := by
  intro j later at_j
  obtain ⟨others, own⟩ := undisturbed (j + 1) later at_j
  refine ⟨others, own.trans ?_⟩
  rw [Nat.add_right_comm, Nat.add_assoc]

section Admits

variable {maxBytes : Int} {total k : Nat} {next : Message × Nat} {messages : List (Message × Nat)}

theorem Admits.start (admits : Admits maxBytes total (k + 1) messages) :
    (total : Int) < maxBytes := by
  have room := admits.room 0 (Nat.succ_pos k)
  rwa [List.take_zero, fetchedBytes, List.map_nil, List.sum_nil, Nat.add_zero] at room

theorem Admits.stop (admits : Admits maxBytes total 0 []) : ¬(total : Int) < maxBytes := by
  have reached := admits.reached rfl
  rw [fetchedBytes, List.map_nil, List.sum_nil, Nat.add_zero] at reached
  omega

theorem Admits.tail (admits : Admits maxBytes total (k + 1) (next :: messages)) :
    Admits maxBytes (total + (next.1.key.length + next.1.value.length)) k messages := by
  have split : ∀ later, fetchedBytes (next :: later) =
      next.1.key.length + next.1.value.length + fetchedBytes later := fun later => rfl
  constructor
  · intro j inside
    have room := admits.room (j + 1) (Nat.succ_lt_succ inside)
    rw [List.take_succ_cons, split, ← Nat.add_assoc] at room
    exact room
  · intro all
    have reached := admits.reached (congrArg (· + 1) all)
    rw [split, ← Nat.add_assoc] at reached
    exact reached

end Admits

/-- The variables of the loop after a message. -/
def Fetch.taking (s : Fetch) (next : Message × Nat) (b : Broker) : Fetch where
  broker := b
  currentOffset := next.2
  envelopes := s.envelopes ++ [envelope next.1 next.2]
  totalBytes := s.totalBytes + (next.1.key.length + next.1.value.length)
  lastOffset := int64OfOffset next.2

/-- From `s` on the loop has collected a series; it fails only with nothing to
show. -/
structure Fetch.Collects (s : Fetch) (series : List (Message × Nat) × Broker)
    (outcome : Except ConsumeError Unit) (s' : Fetch) : Prop where
  broker : s'.broker = series.2
  envelopes : s'.envelopes = s.envelopes ++ series.1.map fun next => envelope next.1 next.2
  lastOffset : s'.lastOffset =
    (series.1.getLast?.map fun next => int64OfOffset next.2).getD s.lastOffset
  failed : ∀ cause, outcome = .error cause → s'.envelopes = []

namespace Fetch.Collects

variable {s s' : Fetch} {series : List (Message × Nat) × Broker} {outcome : Except ConsumeError Unit}

theorem stopped (s : Fetch) (b : Broker) :
    s.Collects ([], b) (.ok ()) { s with broker := b } := by
  refine ⟨rfl, (List.append_nil _).symm, rfl, ?_⟩
  intro cause impossible
  cases impossible

theorem refused (none : s.envelopes = []) (b : Broker) (cause : ConsumeError) :
    s.Collects ([], b) (.error cause) { s with broker := b } :=
  ⟨rfl, (List.append_nil _).symm, rfl, fun _ _ => none⟩

theorem next {next : Message × Nat} {b : Broker}
    (later : (s.taking next b).Collects series outcome s') :
    s.Collects (next :: series.1, series.2) outcome s' := by
  refine ⟨later.broker, ?_, ?_, later.failed⟩
  · rw [later.envelopes, taking, List.append_assoc]
    rfl
  · rw [later.lastOffset, Broker.getLast?_cons_getD]
    rfl

end Fetch.Collects

/-- The loop of the handler collects the series that its limit admits.  It ends
when more rounds than messages come after the deadline. -/
theorem Server.consumeLoop_fetches (req : ConsumeRequest) (maxBytes fetchMinBytes : Int)
    (threshold : Nat → Int) (rounds : List ConsumeRound) : ∀ (i k : Nat) (s : Fetch),
    Undisturbed threshold i rounds → k < rounds.countP (fun round => !round.beforeDeadline) →
    let series := Broker.fetches req.topic req.partition.toInt threshold k i s.broker
      s.currentOffset
    Admits maxBytes s.totalBytes k series.1 →
    ∃ outcome s', consumeLoop req maxBytes fetchMinBytes rounds s = some (outcome, s') ∧
      s.Collects series outcome s' := by
  induction rounds with
  | nil =>
    intro i k s _ impossible
    cases impossible
  | cons round rest ih =>
    intro i k s undisturbed enough
    dsimp only
    intro admits
    obtain ⟨alone, own⟩ := undisturbed 0 round rfl
    unfold consumeLoop
    cases k with
    | zero =>
      rw [if_neg admits.stop]
      exact ⟨_, s, rfl, .stopped s s.broker⟩
    | succ k =>
      rw [if_pos admits.start, alone, own, Nat.add_zero, id_eq]
      cases outcome : s.broker.consumeFrom req.topic req.partition.toInt s.currentOffset
          (threshold i) with
      | mk result b =>
        cases result with
        | error cause =>
          rw [Broker.fetches_error outcome] at admits ⊢
          dsimp only
          split
          · rename_i nothing
            subst nothing
            have quiet : (s.broker.consumeFrom req.topic req.partition.toInt
                s.currentOffset (threshold i)).1 = .error (.next .noMessages) := by
              rw [outcome]
            obtain ⟨-, rfl⟩ := Prod.mk.inj
              (outcome.symm.trans (Broker.consumeFrom_noMessages quiet (threshold i)))
            split
            · -- the wait for more messages: nothing has changed
              rename_i waiting
              have early : round.beforeDeadline = true := waiting.2
              rw [List.countP_cons_of_neg (by simp [early])] at enough
              have again : Broker.fetches req.topic req.partition.toInt threshold (k + 1)
                  (i + 1) s.broker s.currentOffset = ([], s.broker) :=
                Broker.fetches_nothing quiet (k + 1) (i + 1)
              have later := ih (i + 1) (k + 1) s undisturbed.tail enough
              dsimp only at later
              rw [again] at later
              exact later admits
            · exact ⟨_, _, rfl, .stopped s s.broker⟩
          · split
            · exact ⟨_, _, rfl, .stopped s b⟩
            · rename_i none
              have empty := List.length_eq_zero_iff.mp (Nat.eq_zero_of_not_pos none)
              exact ⟨_, _, rfl, .refused empty b cause⟩
        | ok next =>
          rw [Broker.fetches_ok outcome] at admits ⊢
          have fewer : k < rest.countP fun round => !round.beforeDeadline := by
            rw [List.countP_cons] at enough
            split at enough <;> omega
          obtain ⟨outcome', s', ran, collects⟩ :=
            ih (i + 1) k (s.taking next b) undisturbed.tail fewer admits.tail
          exact ⟨outcome', s', ran, collects.next⟩

/-- The messages of an answer; an error has none. -/
def delivered (answer : Except ConsumeError ConsumeResponse) : List MessageEnvelope :=
  (answer.toOption.map ConsumeResponse.messages).getD []

/-- What `Consume` makes of a series: it answers with the messages and commits
the offset after the last one, unless that is negative as a signed integer. -/
structure Fetched (req : ConsumeRequest) (now : Time) (written : Bool)
    (series : List (Message × Nat) × Broker)
    (fetch : Except ConsumeError ConsumeResponse × Broker) : Prop where
  envelopes : delivered fetch.1 = series.1.map fun next => envelope next.1 next.2
  idle : series.1 = [] → fetch.2 = series.2
  commits : ∀ last, series.1.getLast? = some last → fetch.2 =
    if 0 ≤ int64OfOffset last.2 then (series.2.commit req.group req.topic req.partition.toInt
      (int64OfOffset last.2) now written).2 else series.2

theorem Server.consume_fetched (b : Broker) (req : ConsumeRequest) {k : Nat}
    {threshold : Nat → Int} {rounds : List ConsumeRound}
    (undisturbed : Undisturbed threshold 0 rounds)
    (enough : k < rounds.countP (fun round => !round.beforeDeadline))
    (admits : Admits (fetchLimit b.snap.cfg req) 0 k
      (Broker.fetches req.topic req.partition.toInt threshold k 0 b
        (b.loadOffset req.group req.topic req.partition.toInt)).1)
    (now : Time) (written : Bool) :
    ∃ answer b', consume b req rounds now written = some (answer, b') ∧
      Fetched req now written (Broker.fetches req.topic req.partition.toInt threshold k 0 b
        (b.loadOffset req.group req.topic req.partition.toInt)) (answer, b') := by
  obtain ⟨outcome, s', ran, collects⟩ := consumeLoop_fetches req
    (fetchLimit b.snap.cfg req) b.snap.cfg.fetchMinBytes threshold rounds 0 k
    { broker := b
      currentOffset := b.loadOffset req.group req.topic req.partition.toInt
      envelopes := []
      totalBytes := 0
      lastOffset := -1 } undisturbed enough admits
  obtain ⟨broker, envelopes, last, failed⟩ := collects
  dsimp only at broker envelopes last
  generalize Broker.fetches req.topic req.partition.toInt threshold k 0 b
    (b.loadOffset req.group req.topic req.partition.toInt) = series at broker envelopes last ⊢
  rw [List.nil_append] at envelopes
  unfold consume
  simp only [ran]
  cases outcome with
  | error cause =>
    have none : series.1 = [] := by
      rw [failed cause rfl] at envelopes
      exact List.map_eq_nil_iff.mp envelopes.symm
    refine ⟨_, _, rfl, ?_, fun _ => broker, ?_⟩
    · rw [none]
      rfl
    · intro final ends
      rw [none] at ends
      cases ends
  | ok done =>
    refine ⟨_, _, rfl, envelopes, ?_, ?_⟩
    · intro none
      rw [none, List.getLast?_nil, Option.map_none, Option.getD_none] at last
      rw [last, if_neg (by decide)]
      exact broker
    · intro final ends
      rw [ends, Option.map_some, Option.getD_some] at last
      rw [last, broker]

/-! ## The two starts -/

namespace Broker

/-- The message at offset 1 is there for a FIFO consumer. -/
def FirstDeliverable (b : Broker) (name : Bytes) (partIdx : Int) : Prop :=
  ∃ t p raw msg, b.topics name = some t ∧ t.partition partIdx = .ok p ∧
    b.schedulers name = some .fifo ∧ 1 ≤ p.highWaterMark ∧ p.read 1 = .ok raw ∧
    b.decompressMessage raw = .ok msg

section Start

variable {b : Broker} {name : Bytes} {partIdx : Int}

theorem consumeFrom_zero {t : Topic} {p : Partition} (there : b.topics name = some t)
    (found : t.partition partIdx = .ok p) (fifo : b.schedulers name = some .fifo)
    (threshold : Int) :
    b.consumeFrom name partIdx 0 threshold = (.error (.next (.read (.walRead 0 .notFound))), b) := by
  have missing : p.read 0 = .error (.walRead 0 .notFound) := by
    unfold Partition.read Log.read
    rw [if_pos (.inl rfl)]
  rw [consumeFrom_fifo fifo there found, Partition.fifoNext, if_neg (Nat.not_lt_zero _), missing]

theorem consumeFrom_start (undeliverable : ¬b.FirstDeliverable name partIdx) (threshold : Int) :
    b.consumeFrom name partIdx 0 threshold = b.consumeFrom name partIdx 1 threshold ∨
      ∃ cause cause', b.consumeFrom name partIdx 0 threshold = (.error cause, b) ∧
        b.consumeFrom name partIdx 1 threshold = (.error cause', b) := by
  by_cases served : b.Served name partIdx
  · obtain ⟨t, p, mode, there, found, scheduler⟩ := served
    cases mode with
    | fifo =>
      refine .inr ⟨.next (.read (.walRead 0 .notFound)), ?_⟩
      rw [consumeFrom_zero there found scheduler, consumeFrom_fifo scheduler there found]
      by_cases beyond : p.highWaterMark < 1
      · rw [Partition.fifoNext, if_pos beyond]
        exact ⟨_, rfl, rfl⟩
      · rw [Partition.fifoNext, if_neg beyond]
        cases read : p.read 1 with
        | error cause => exact ⟨_, rfl, rfl⟩
        | ok raw =>
          dsimp only
          cases decompressed : b.decompressMessage raw with
          | error cause => exact ⟨_, rfl, rfl⟩
          | ok msg =>
            exact absurd ⟨t, p, raw, msg, there, found, scheduler, Nat.not_lt.mp beyond,
              read, decompressed⟩ undeliverable
    | strictPriority =>
      refine .inl ?_
      rw [consumeFrom_eq scheduler there found, consumeFrom_eq scheduler there found]
      rfl
    | dqnAdaptive =>
      refine .inl ?_
      rw [consumeFrom_eq scheduler there found, consumeFrom_eq scheduler there found]
      rfl
  · obtain ⟨cause, -, failed⟩ := consumeFrom_refused served
    exact .inl ((failed 0 threshold).trans (failed 1 threshold).symm)

theorem fetches_start (undeliverable : ¬b.FirstDeliverable name partIdx) (threshold : Nat → Int)
    (count i : Nat) :
    fetches name partIdx threshold count i b 0 = fetches name partIdx threshold count i b 1 := by
  cases count with
  | zero => rfl
  | succ count =>
    rcases consumeFrom_start undeliverable (threshold i) with
      same | ⟨cause, cause', failed, failed'⟩
    · rw [fetches, fetches, same]
    · rw [fetches_error failed, fetches_error failed']

theorem fetches_first (deliverable : b.FirstDeliverable name partIdx) (threshold : Nat → Int)
    {count : Nat} (positive : 1 ≤ count) (i : Nat) :
    (fetches name partIdx threshold count i b 0).1 = [] ∧
      (fetches name partIdx threshold count i b 1).1 ≠ [] := by
  obtain ⟨t, p, raw, msg, there, found, fifo, inside, read, decompressed⟩ := deliverable
  obtain ⟨count, rfl⟩ := Nat.exists_eq_add_of_le' positive
  have first : b.consumeFrom name partIdx 1 (threshold i) = (.ok (msg, 2), b) := by
    rw [consumeFrom_fifo fifo there found, Partition.fifoNext, if_neg (Nat.not_lt.mpr inside), read]
    dsimp only
    rw [decompressed]
  rw [fetches_error (consumeFrom_zero there found fifo (threshold i)), fetches_ok first]
  exact ⟨rfl, List.cons_ne_nil _ _⟩

end Start

theorem start_offsets (b : Broker) (group name : Bytes) (partIdx : Int) :
    (b.offsetStore = none ∧ b.startOffset group name partIdx = 0 ∧
      b.loadOffset group name partIdx = 1) ∨
    ∃ store, b.offsetStore = some store ∧
      b.startOffset group name partIdx = b.loadOffset group name partIdx := by
  cases stored : b.offsetStore with
  | none => exact .inl ⟨rfl, by rw [startOffset, stored], by rw [loadOffset, stored]⟩
  | some store =>
    refine .inr ⟨store, rfl, ?_⟩
    cases loaded : store.load group name partIdx with
    | error cause => simp only [startOffset, loadOffset, stored, loaded]
    | ok off => simp only [startOffset, loadOffset, stored, loaded]

/-- The offset that a group has committed, if there is a store to ask. -/
def committed (b : Broker) (group name : Bytes) (partIdx : Int) :
    Option (Except StoreError Int64) :=
  b.offsetStore.map fun store => store.load group name partIdx

theorem commit_topics (b : Broker) (group name : Bytes) (partIdx : Int) (offset : Int64)
    (now : Time) (written : Bool) :
    (b.commit group name partIdx offset now written).2.topics = b.topics := by
  unfold commit
  cases b.offsetStore <;> rfl

variable {b : Broker} {name : Bytes} {partIdx : Int}

theorem commit_of_none (none : b.offsetStore = none) (group name : Bytes) (partIdx : Int)
    (offset : Int64) (now : Time) (written : Bool) :
    (b.commit group name partIdx offset now written).2 = b := by
  rw [commit, none]

theorem committed_commit {store : OffsetStore} (stored : b.offsetStore = some store)
    (group name : Bytes) (partIdx : Int) (offset : Int64) (now : Time) (written : Bool) :
    (b.commit group name partIdx offset now written).2.committed group name partIdx =
      some (.ok offset) := by
  rw [commit, stored]
  exact congrArg some (store.load_commit_self group name partIdx offset now written)

/-- The offset after the last message that up to `k` calls deliver is not
negative as a signed integer, or it is the one already committed. -/
def LastFits (b : Broker) (group name : Bytes) (partIdx : Int) (threshold : Nat → Int) (k : Nat) :
    Prop :=
  ∀ store last, b.offsetStore = some store →
    (fetches name partIdx threshold k 0 b (b.loadOffset group name partIdx)).1.getLast? =
      some last →
    0 ≤ int64OfOffset last.2 ∨ store.load group name partIdx = .ok (int64OfOffset last.2)

/-- The log of the partition, if it is there, ends before `bound`. -/
def LogWithin (b : Broker) (name : Bytes) (partIdx : Int) (bound : Nat) : Prop :=
  ∀ t p, b.topics name = some t → t.partition partIdx = .ok p → p.log.nextIndex ≤ bound

theorem consumeFrom_within {bound : Nat} (within : b.LogWithin name partIdx bound) (offset : Nat)
    (threshold : Int) :
    (b.consumeFrom name partIdx offset threshold).2.LogWithin name partIdx bound ∧
      ∀ next, (b.consumeFrom name partIdx offset threshold).1 = .ok next → next.2 ≤ bound := by
  by_cases served : b.Served name partIdx
  · obtain ⟨t, p, mode, there, found, scheduler⟩ := served
    have limit := within t p there found
    constructor
    · obtain ⟨t', popped, after⟩ := consumeFrom_popped scheduler there partIdx offset threshold
      obtain ⟨p', found', pi, rfl⟩ := popped.forward partIdx p found
      rw [after]
      intro t'' p'' there'' found''
      rw [setTopic_topics_self] at there''
      cases there''
      rw [found'] at found''
      cases found''
      exact limit
    · intro next success
      obtain ⟨⟨raw, read, -⟩, fifo⟩ :=
        consumeFrom_ok scheduler there found (Prod.ext success rfl)
      have inside := (Partition.read_bounds read).2
      unfold Partition.readAt at inside
      split at inside
      · rename_i queue
        have := fifo queue
        omega
      · omega
  · obtain ⟨cause, -, failed⟩ := consumeFrom_refused served
    rw [failed]
    exact ⟨within, fun next impossible => by cases impossible⟩

theorem lastFits_of_small (small : ∀ t p, b.topics name = some t → t.partition partIdx = .ok p →
      p.log.nextIndex < 2 ^ 63) (group : Bytes) (threshold : Nat → Int) (k : Nat) :
    b.LastFits group name partIdx threshold k := by
  intro store last _ ends
  have inside := (fetches_invariant (fun b' offset i within => b'.consumeFrom_within within offset
    (threshold i)) k 0 b _ (fun t p there found => Nat.le_sub_one_of_lt (small t p there found))).2
    last (List.mem_of_getLast? ends)
  refine .inl (Int64.le_iff_toInt_le.mpr ?_)
  rw [int64OfOffset_toInt (by omega)]
  exact Int.natCast_nonneg _

end Broker

/-! ## The comparison -/

/-- A `ConsumeBatch` and a `Consume` have returned the same messages in the same
order and have left the same committed offset and the same topics. -/
structure Agree (req : ConsumeRequest) (batch : Broker.ConsumeResult × Broker)
    (fetch : Except ConsumeError ConsumeResponse × Broker) : Prop where
  messages : List.Forall₂ (fun m e => ∃ next, e = envelope m next) batch.1.msgs
    (delivered fetch.1)
  committed : batch.2.committed req.group req.topic req.partition.toInt =
    fetch.2.committed req.group req.topic req.partition.toInt
  topics : batch.2.topics = fetch.2.topics

theorem envelopes_agree (series : List (Message × Nat)) :
    List.Forall₂ (fun m e => ∃ next, e = envelope m next) (series.map Prod.fst)
      (series.map fun next => envelope next.1 next.2) := by
  rw [List.forall₂_map_left_iff, List.forall₂_map_right_iff]
  exact List.forall₂_same.mpr fun next _ => ⟨next.2, rfl⟩

theorem agree_iff_of_series {req : ConsumeRequest} {env : ConsumeEnv}
    {series : List (Message × Nat) × Broker} {batch : Broker.ConsumeResult × Broker}
    {fetch : Except ConsumeError ConsumeResponse × Broker}
    (collected : Broker.Collected req.group req.topic req.partition.toInt env series batch)
    (fetched : Fetched req env.now env.written series fetch) :
    Agree req batch fetch ↔ ∀ store last, series.2.offsetStore = some store →
      series.1.getLast? = some last → 0 ≤ int64OfOffset last.2 ∨
        store.load req.group req.topic req.partition.toInt = .ok (int64OfOffset last.2) := by
  constructor
  · intro agree store last stored ends
    by_cases fits : 0 ≤ int64OfOffset last.2
    · exact .inl fits
    · have same := agree.committed
      rw [collected.commits last ends, fetched.commits last ends, if_neg fits,
        Broker.committed_commit stored, Broker.committed, stored, Option.map_some] at same
      exact .inr (Option.some.inj same).symm
  · intro fits
    have messages := envelopes_agree series.1
    rw [← collected.msgs, ← fetched.envelopes] at messages
    cases ends : series.1.getLast? with
    | none =>
      have empty := List.getLast?_eq_none_iff.mp ends
      refine ⟨messages, ?_, ?_⟩
      · rw [collected.idle empty, fetched.idle empty]
      · rw [collected.idle empty, fetched.idle empty]
    | some last =>
      have left := collected.commits last ends
      have right := fetched.commits last ends
      refine ⟨messages, ?_, ?_⟩
      · rw [left, right]
        split
        · rfl
        · rename_i negative
          cases stored : series.2.offsetStore with
          | none => rw [Broker.commit_of_none stored]
          | some store =>
            have already := (fits store last stored ends).resolve_left negative
            rw [Broker.committed_commit stored, Broker.committed, stored, Option.map_some,
              already]
      · rw [left, right, Broker.commit_topics]
        split
        · rw [Broker.commit_topics]
        · rfl

/-- `ConsumeBatch` for `k` messages and a `Consume` whose limit admits `k`
messages, on the same broker with nobody else at work, agree exactly when there
is an offset store or nothing that the missing one would hide, and the offset to
commit is one that the handler commits. -/
theorem consume_agrees_iff (b : Broker) (req : ConsumeRequest) {k : Nat} (positive : 1 ≤ k)
    (env : ConsumeEnv) {rounds : List ConsumeRound}
    (undisturbed : Undisturbed env.threshold 0 rounds)
    (ends : k < rounds.countP fun round => !round.beforeDeadline)
    (admits : Admits (Server.fetchLimit b.snap.cfg req) 0 k
      (Broker.fetches req.topic req.partition.toInt env.threshold k 0 b
        (b.loadOffset req.group req.topic req.partition.toInt)).1) :
    ∃ answer b', Server.consume b req rounds env.now env.written = some (answer, b') ∧
      (Agree req (b.consumeBatch req.topic req.group req.partition.toInt k env) (answer, b') ↔
        (b.offsetStore = none → ¬b.FirstDeliverable req.topic req.partition.toInt) ∧
          b.LastFits req.group req.topic req.partition.toInt env.threshold k) := by
  obtain ⟨answer, b', ran, fetched⟩ :=
    Server.consume_fetched b req undisturbed ends admits env.now env.written
  have collected := b.consumeBatch_collected req.topic req.group req.partition.toInt k env
  rw [Int.toNat_natCast] at collected
  have kept : (Broker.fetches req.topic req.partition.toInt env.threshold k 0 b
      (b.loadOffset req.group req.topic req.partition.toInt)).2.offsetStore = b.offsetStore :=
    Broker.fetches_offsetStore b _ k 0
  refine ⟨answer, b', ran, ?_⟩
  rcases b.start_offsets req.group req.topic req.partition.toInt with
    ⟨none, zero, one⟩ | ⟨store, stored, same⟩
  · by_cases deliverable : b.FirstDeliverable req.topic req.partition.toInt
    · obtain ⟨empty, some⟩ := Broker.fetches_first deliverable env.threshold positive 0
      constructor
      · intro agree
        have messages := agree.messages
        rw [collected.msgs, zero, empty, fetched.envelopes, one, List.map_nil,
          List.forall₂_nil_left_iff, List.map_eq_nil_iff] at messages
        exact absurd messages some
      · rintro ⟨undeliverable, -⟩
        exact absurd deliverable (undeliverable none)
    · rw [zero, Broker.fetches_start deliverable, ← one] at collected
      rw [agree_iff_of_series collected fetched, kept]
      exact ⟨fun fits => ⟨fun _ => deliverable, fits⟩, fun both => both.2⟩
  · rw [same] at collected
    rw [agree_iff_of_series collected fetched, kept]
    refine ⟨fun fits => ⟨fun none => ?_, fits⟩, fun both => both.2⟩
    rw [stored] at none
    cases none

/-! ## One message, with and without an offset store -/

/-- A request for one byte, that is, for one message. -/
def oneByte : ConsumeRequest := ⟨[116], [103], 0, 1⟩

def plainConsume : ConsumeEnv := ⟨fun _ => 0, 10, true⟩

theorem quietRounds_undisturbed : Undisturbed plainConsume.threshold 0 [quietRound, quietRound] := by
  intro j round at_j
  have quiet := List.eq_of_mem_replicate
    (show round ∈ List.replicate 2 quietRound from List.mem_of_getElem? at_j)
  rw [quiet]
  exact ⟨rfl, rfl⟩

theorem consume_agrees_with_store :
    ∃ answer b', Server.consume smallMessage oneByte [quietRound, quietRound] 10 true =
        some (answer, b') ∧
      Agree oneByte (smallMessage.consumeBatch [116] [103] 0 1 plainConsume) (answer, b') := by
  obtain ⟨answer, b', ran, agrees⟩ := consume_agrees_iff smallMessage oneByte (Nat.le_refl 1)
    plainConsume quietRounds_undisturbed (by decide) ⟨by decide +kernel, by decide +kernel⟩
  have stored : smallMessage.offsetStore.isSome = true := by decide +kernel
  have next : (smallMessage.topics [116]).bind (fun t => (t.partition 0).toOption.map
      fun p => p.log.nextIndex) = some 2 := by decide +kernel
  refine ⟨answer, b', ran, agrees.mpr ⟨?_, Broker.lastFits_of_small ?_ _ _ _⟩⟩
  · intro none
    rw [none] at stored
    cases stored
  · intro t p there found
    rw [show smallMessage.topics [116] = some t from there, Option.bind_some,
      show t.partition 0 = .ok p from found] at next
    rw [show p.log.nextIndex = 2 from Option.some.inj next]
    decide

/-- The same broker without an offset store. -/
def storeless : Broker := { smallMessage with offsetStore := none }

/-- `Consume` delivers the message; `ConsumeBatch` asks for offset zero and
fails. -/
theorem consume_disagrees_without_store :
    Admits (Server.fetchLimit storeless.snap.cfg oneByte) 0 1
      (Broker.fetches [116] 0 plainConsume.threshold 1 0 storeless
        (storeless.loadOffset [103] [116] 0)).1 ∧
    (storeless.consumeBatch [116] [103] 0 1 plainConsume).1.msgs = [] ∧
    (storeless.consumeBatch [116] [103] 0 1 plainConsume).1.err =
      some (.next (.read (.walRead 0 .notFound))) ∧
    ∃ answer b', Server.consume storeless oneByte [quietRound, quietRound] 10 true =
        some (answer, b') ∧
      (delivered answer).map MessageEnvelope.value = [[118]] ∧
      ¬Agree oneByte (storeless.consumeBatch [116] [103] 0 1 plainConsume) (answer, b') := by
  have nothing : (storeless.consumeBatch [116] [103] 0 1 plainConsume).1.msgs = [] := by
    decide +kernel
  have answered : (Server.consume storeless oneByte [quietRound, quietRound] 10 true).map
      (fun out => (delivered out.1).map MessageEnvelope.value) = some [[118]] := by decide +kernel
  obtain ⟨⟨answer, b'⟩, ran, shown⟩ := Option.map_eq_some_iff.mp answered
  refine ⟨⟨by decide +kernel, by decide +kernel⟩, nothing, by decide +kernel, answer, b', ran, shown,
    ?_⟩
  intro agree
  have messages := agree.messages
  rw [nothing, List.forall₂_nil_left_iff] at messages
  rw [messages] at shown
  cases shown

end NyaQueue
