import NyaQueue.ConsumeOffsets
import NyaQueue.FetchLimit

/-!
# The consumer worker

Model of `runWorker` (`cmd/consumer/run.go`) on a FIFO topic.  It fetches a batch,
processes the messages in order and commits after each of them.  By then `Consume`
has already committed the end of the batch, so that the first commit of the worker
takes the offset of its group back.  An answer can get lost, and the worker can
return or die at any time; it is started again with nothing in hand.
-/

set_option autoImplicit false

namespace NyaQueue

structure ConsumerConfig where
  topic : Bytes
  group : Bytes
  partition : Int32

def fetchMaxBytes : Int32 := 1048576

def ConsumerConfig.request (cfg : ConsumerConfig) : ConsumeRequest :=
  ⟨cfg.topic, cfg.group, cfg.partition, fetchMaxBytes⟩

/-- Where the next fetch of the group starts. -/
def Broker.fetchStart (cfg : ConsumerConfig) (b : Broker) : Nat :=
  b.loadOffset cfg.group cfg.topic cfg.partition.toInt

def MessageEnvelope.position (e : MessageEnvelope) : Nat := offsetOfInt64 e.offset

structure WorkerRun where
  broker : Broker
  /-- the messages in hand -/
  batch : List MessageEnvelope
  /-- what has been processed, since the worker was started for the first time -/
  processed : List MessageEnvelope

inductive WorkerEvent where
  /-- what everybody else has made of the broker -/
  | others (b : Broker)
  | consume (rounds : List ConsumeRound) (now : Time) (written : Bool)
  /-- the next message; `arrives` says whether its `Commit` reaches the server -/
  | process (arrives : Bool) (now : Time) (written : Bool)
  /-- the answer to `Consume` is lost, a canceled `Commit` makes the worker return, or
  it dies -/
  | leave

namespace WorkerRun

def start (b : Broker) : WorkerRun := ⟨b, [], []⟩

def step (cfg : ConsumerConfig) (s : WorkerRun) : WorkerEvent → WorkerRun
  | .others b => { s with broker := b }
  | .consume rounds now written =>
      match s.batch, Server.consume s.broker cfg.request rounds now written with
      | [], some (.ok resp, b) => { s with broker := b, batch := resp.messages }
      | [], some (.error _, b) => { s with broker := b }
      | _, _ => s
  | .process arrives now written =>
      match s.batch with
      | [] => s
      | e :: rest =>
          { broker := if arrives then (s.broker.commit cfg.group cfg.topic cfg.partition.toInt
              (e.offset + 1) now written).2 else s.broker
            batch := rest
            processed := s.processed ++ [e] }
  | .leave => { s with batch := [] }

/-- At least once: of the messages from `first` up to where the next fetch starts,
none is skipped. -/
def Covered (cfg : ConsumerConfig) (first : Nat) (s : WorkerRun) : Prop :=
  ∀ offset, first ≤ offset → offset < s.broker.fetchStart cfg →
    ∃ e ∈ s.processed ++ s.batch, e.position = offset

/-- The worker may drop what it has in hand: the next fetch brings it again, or it
was processed before. -/
def MayLeave (cfg : ConsumerConfig) (s : WorkerRun) : Prop :=
  (∀ e ∈ s.batch, s.broker.fetchStart cfg ≤ e.position) ∨
    ∀ e ∈ s.batch, ∃ e' ∈ s.processed, e'.position = e.position

instance (cfg : ConsumerConfig) (s : WorkerRun) : Decidable (s.MayLeave cfg) :=
  inferInstanceAs (Decidable (_ ∨ _))

def Careful (cfg : ConsumerConfig) (s : WorkerRun) : WorkerEvent → Prop
  | .leave => s.MayLeave cfg
  | _ => True

end WorkerRun

/-- The offset of the group and the scheduler of the topic stay as they are. -/
structure ConsumerConfig.Respects (cfg : ConsumerConfig) (b b' : Broker) : Prop where
  position : b'.fetchStart cfg = b.fetchStart cfg
  scheduler : b'.schedulers cfg.topic = b.schedulers cfg.topic

/-- Nobody else commits for the group or replaces the scheduler. -/
def WorkerRun.Alone (cfg : ConsumerConfig) (s : WorkerRun) : WorkerEvent → Prop
  | .others b => cfg.Respects s.broker b
  | .consume rounds _ _ => ∀ round ∈ rounds, ∀ b, cfg.Respects b (round.others b)
  | _ => True

/-! ## One fetch -/

theorem offsetOfInt64_succ {a : Int64} (fits : offsetOfInt64 a + 1 < 2 ^ 64) :
    offsetOfInt64 (a + 1) = offsetOfInt64 a + 1 := by
  have sum : (a + 1).toUInt64 = a.toUInt64 + 1 := rfl
  unfold offsetOfInt64 at fits ⊢
  rw [sum, UInt64.toNat_add]
  exact Nat.mod_eq_of_lt fits

theorem envelope_position (msg : Message) {offset : Nat} (fits : offset < 2 ^ 64) :
    (envelope msg (offset + 1)).position = offset := by
  have own : (envelope msg (offset + 1)).offset = int64OfOffset offset := by
    rw [envelope, RpcRun.int64OfOffset_succ, Int64.add_sub_cancel]
  rw [MessageEnvelope.position, own, offsetOfInt64_int64OfOffset fits]

variable {cfg : ConsumerConfig}

theorem ConsumerConfig.Respects.trans {b b' b'' : Broker} (first : cfg.Respects b b')
    (second : cfg.Respects b' b'') : cfg.Respects b b'' :=
  ⟨second.position.trans first.position, second.scheduler.trans first.scheduler⟩

/-- Producers are others that a worker can be alone with. -/
theorem ConsumerConfig.respects_publishWith (cfg : ConsumerConfig) (snap : ConfigSnapshot)
    (b : Broker) (name : Bytes) (msg : Message) (env : PublishEnv) :
    cfg.Respects b (Broker.publishWith snap b name msg env).2.2 := by
  have same := congrArg Broker.offsetStore
    (Broker.publishWith_offsetStore snap b name msg env b.offsetStore)
  refine ⟨?_, congrFun (Broker.keeps_publishWith snap b name msg env).schedulers cfg.topic⟩
  rw [Broker.fetchStart, Broker.loadOffset, show _ = b.offsetStore from same]
  rfl

/-- Under the FIFO scheduler `ConsumeFrom` changes nothing and goes on by one. -/
theorem Broker.consumeFrom_fifo_next {b : Broker} {name : Bytes}
    (fifo : b.schedulers name = some .fifo) (partIdx : Int) (offset : Nat) (threshold : Int) :
    (b.consumeFrom name partIdx offset threshold).2 = b ∧
      ∀ next, (b.consumeFrom name partIdx offset threshold).1 = .ok next →
        next.2 = offset + 1 ∧ offset + 1 < 2 ^ 64 := by
  by_cases served : b.Served name partIdx
  · obtain ⟨t, p, mode, there, found, scheduler⟩ := served
    cases fifo.symm.trans scheduler
    refine ⟨by rw [consumeFrom_fifo fifo there found], ?_⟩
    intro next success
    obtain ⟨⟨raw, read, -⟩, follows⟩ := consumeFrom_ok fifo there found (Prod.ext success rfl)
    have inside := (Partition.read_bounds read).2
    rw [Partition.readAt, if_pos rfl] at inside
    exact ⟨follows rfl, Nat.lt_of_le_of_lt inside p.log.next_fits⟩
  · obtain ⟨cause, -, failed⟩ := consumeFrom_refused served
    rw [failed]
    exact ⟨rfl, fun next impossible => by cases impossible⟩

/-- What every round of a fetch keeps, the fetch keeps. -/
theorem fetchLoop_invariant {target : FetchTarget} {invariant : Fetch → Prop}
    (rounds : List ConsumeRound)
    (keep : ∀ round ∈ rounds, ∀ s : Fetch, invariant s →
      invariant (fetchOnce target round.threshold round.beforeDeadline
        { s with broker := round.others s.broker }).2) :
    ∀ s, invariant s → ∀ out, fetchLoop target rounds s = some out → invariant out.2 := by
  induction rounds with
  | nil =>
    intro s holds out ran
    unfold fetchLoop at ran
    split at ran <;> cases ran
    exact holds
  | cons round rest ih =>
    intro s holds out ran
    obtain ⟨here, later⟩ := List.forall_mem_cons.mp keep
    have next := here s holds
    unfold fetchLoop at ran
    split at ran
    · split at ran
      · rename_i s' once
        rw [once] at next
        exact ih later s' next out ran
      · rename_i result s' once
        rw [once] at next
        cases ran
        exact next
    · cases ran
      exact holds

/-- A fetch has collected the messages from the position at its start on. -/
structure Fetch.Collected (cfg : ConsumerConfig) (b : Broker) (s : Fetch) : Prop where
  respects : cfg.Respects b s.broker
  positions : s.envelopes.map MessageEnvelope.position =
    List.range' (b.fetchStart cfg) s.envelopes.length
  current : s.currentOffset = b.fetchStart cfg + s.envelopes.length
  fits : s.envelopes ≠ [] → s.currentOffset < 2 ^ 64
  last : s.lastOffset = if s.envelopes = [] then -1 else int64OfOffset s.currentOffset

theorem Fetch.Collected.once {b : Broker} {s : Fetch} (collected : s.Collected cfg b)
    (fifo : b.schedulers cfg.topic = some .fifo) {target : FetchTarget}
    (topic : target.topic = cfg.topic) {b' : Broker} (others : cfg.Respects s.broker b')
    (threshold : Int) (beforeDeadline : Bool) :
    (fetchOnce target threshold beforeDeadline { s with broker := b' }).2.Collected cfg b := by
  obtain ⟨respects, positions, current, fits, last⟩ := collected
  have kept := respects.trans others
  obtain ⟨same, next⟩ := Broker.consumeFrom_fifo_next (topic ▸ kept.scheduler.trans fifo)
    target.partition s.currentOffset threshold
  unfold fetchOnce
  dsimp only
  cases consumed : b'.consumeFrom target.topic target.partition s.currentOffset threshold with
  | mk result b'' =>
    rw [consumed] at same next
    obtain rfl : b'' = b' := same
    cases result with
    | error cause =>
      dsimp only
      split <;> split <;> exact ⟨kept, positions, current, fits, last⟩
    | ok handed =>
      obtain ⟨msg, offset⟩ := handed
      obtain ⟨rfl, small⟩ : offset = s.currentOffset + 1 ∧ _ := next _ rfl
      refine ⟨kept, ?_, ?_, fun _ => small, (if_neg (List.append_ne_nil_of_right_ne_nil _
        (List.cons_ne_nil _ _))).symm⟩
      · rw [List.map_append, List.map_singleton, envelope_position msg (by omega), positions,
          current, List.length_append, List.length_singleton, List.range'_concat, Nat.one_mul]
      · rw [current, List.length_append, List.length_singleton, Nat.add_assoc]

/-- A commit is not kept without an offset store. -/
theorem Broker.commit_moves (cfg : ConsumerConfig) (b : Broker) (offset : Int64) (now : Time)
    (written : Bool) :
    let b' := (b.commit cfg.group cfg.topic cfg.partition.toInt offset now written).2
    b'.schedulers cfg.topic = b.schedulers cfg.topic ∧
      (b'.fetchStart cfg = b.fetchStart cfg ∨ b'.fetchStart cfg = offsetOfInt64 offset) := by
  refine ⟨congrFun (b.keeps_commit ..).schedulers cfg.topic, ?_⟩
  unfold commit
  cases stored : b.offsetStore with
  | none => exact .inl rfl
  | some store =>
    refine .inr ?_
    simp only [fetchStart, loadOffset]
    rw [store.load_commit_self]

/-- A whole `Consume`: the messages from the position on, which it moves behind them
or leaves as it is. -/
theorem consume_moves {b b' : Broker} {rounds : List ConsumeRound} {now : Time} {written : Bool}
    {answer : Except ConsumeError ConsumeResponse}
    (fifo : b.schedulers cfg.topic = some .fifo)
    (respects : ∀ round ∈ rounds, ∀ b, cfg.Respects b (round.others b))
    (ran : Server.consume b cfg.request rounds now written = some (answer, b')) :
    b'.schedulers cfg.topic = some .fifo ∧
      match answer with
      | .error _ => b'.fetchStart cfg = b.fetchStart cfg
      | .ok resp => resp.messages.map MessageEnvelope.position =
            List.range' (b.fetchStart cfg) resp.messages.length ∧
          (resp.messages ≠ [] → b.fetchStart cfg + resp.messages.length < 2 ^ 64) ∧
          (b'.fetchStart cfg = b.fetchStart cfg ∨
            b'.fetchStart cfg = b.fetchStart cfg + resp.messages.length) := by
  rw [Server.consume_eq] at ran
  obtain ⟨⟨result, s⟩, fetched, answered⟩ := Option.map_eq_some_iff.mp ran
  obtain ⟨kept, positions, current, fits, last⟩ : s.Collected cfg b :=
    fetchLoop_invariant rounds (fun round member s collected =>
      collected.once fifo rfl (respects round member _) _ _) _
      ⟨⟨rfl, rfl⟩, rfl, rfl, fun none => absurd rfl none, rfl⟩ _ fetched
  have fifo' := kept.scheduler.trans fifo
  cases result with
  | error cause =>
    cases answered
    exact ⟨fifo', kept.position⟩
  | ok done =>
    obtain ⟨rfl, rfl⟩ := Prod.mk.inj answered
    rw [current] at fits last
    dsimp only [Except.map, Fetch.leave, Fetch.commit]
    split
    · rename_i nonneg
      obtain ⟨scheduler, moved⟩ := s.broker.commit_moves cfg s.lastOffset now written
      refine ⟨scheduler.trans fifo', positions, fits, ?_⟩
      rcases moved with same | committed
      · exact .inl (same.trans kept.position)
      · refine .inr (committed.trans ?_)
        by_cases none : s.envelopes = []
        · rw [last, if_pos none] at nonneg
          exact absurd nonneg (by decide)
        · rw [last, if_neg none, offsetOfInt64_int64OfOffset (fits none)]
    · exact ⟨fifo', positions, fits, .inl kept.position⟩

/-! ## Every run -/

namespace WorkerRun

variable {first : Nat} {s : WorkerRun}

/-- What is in hand is the messages from `next` on, what comes before has been
processed, and the position is either behind the worker or at the end of its batch. -/
structure InHand (cfg : ConsumerConfig) (first : Nat) (s : WorkerRun) (next : Nat) : Prop where
  batch : s.batch.map MessageEnvelope.position = List.range' next s.batch.length
  fits : s.batch ≠ [] → next + s.batch.length < 2 ^ 64
  behind : s.broker.fetchStart cfg ≤ next ∨ s.broker.fetchStart cfg = next + s.batch.length
  start : first ≤ next
  done : ∀ offset, first ≤ offset → offset < next → ∃ e ∈ s.processed, e.position = offset

structure Inv (cfg : ConsumerConfig) (first : Nat) (s : WorkerRun) : Prop where
  fifo : s.broker.schedulers cfg.topic = some .fifo
  start : first ≤ s.broker.fetchStart cfg
  hand : ∃ next, s.InHand cfg first next

theorem InHand.mem_iff {next : Nat} (hand : s.InHand cfg first next) (offset : Nat) :
    (∃ e ∈ s.batch, e.position = offset) ↔ next ≤ offset ∧ offset < next + s.batch.length := by
  rw [← List.mem_map, hand.batch, List.mem_range'_1]

theorem Inv.covered (inv : Inv cfg first s) : s.Covered cfg first := by
  intro offset start below
  obtain ⟨next, hand⟩ := inv.hand
  by_cases before : offset < next
  · obtain ⟨e, member, same⟩ := hand.done offset start before
    exact ⟨e, List.mem_append_left _ member, same⟩
  · have behind := hand.behind
    obtain ⟨e, member, same⟩ := (hand.mem_iff offset).mpr (by omega)
    exact ⟨e, List.mem_append_right _ member, same⟩

theorem Inv.respected (inv : Inv cfg first s) {b : Broker}
    (fifo : b.schedulers cfg.topic = some .fifo)
    (same : b.fetchStart cfg = s.broker.fetchStart cfg) : Inv cfg first { s with broker := b } := by
  obtain ⟨next, batch, fits, behind, start, done⟩ := inv.hand
  rw [← same] at behind
  exact ⟨fifo, inv.start.trans (Nat.le_of_eq same.symm), next, batch, fits, behind, start, done⟩

theorem Inv.consume (inv : Inv cfg first s) {rounds : List ConsumeRound} {now : Time}
    {written : Bool} (alone : s.Alone cfg (.consume rounds now written)) :
    Inv cfg first (s.step cfg (.consume rounds now written)) := by
  simp only [WorkerRun.step]
  split
  · rename_i resp b empty ran
    obtain ⟨fifo, batch, fits, moved⟩ := consume_moves inv.fifo alone ran
    obtain ⟨next, hand⟩ := inv.hand
    have behind := hand.behind
    rw [empty, List.length_nil] at behind
    have start := inv.start
    refine ⟨fifo, ?_, s.broker.fetchStart cfg, batch, fits, moved.imp_left Nat.le_of_eq, start, ?_⟩
    · dsimp only
      omega
    · exact fun offset after before => hand.done offset after (by omega)
  · rename_i cause b empty ran
    obtain ⟨fifo, same⟩ := consume_moves inv.fifo alone ran
    exact inv.respected fifo same
  · exact inv

/-- The next message is done, and the position is the one before or has been
committed behind it. -/
theorem Inv.done (inv : Inv cfg first s) {e : MessageEnvelope} {rest : List MessageEnvelope}
    (inHand : s.batch = e :: rest) {b : Broker} (fifo : b.schedulers cfg.topic = some .fifo)
    (position : b.fetchStart cfg = s.broker.fetchStart cfg ∨
      b.fetchStart cfg = offsetOfInt64 (e.offset + 1)) :
    Inv cfg first ⟨b, rest, s.processed ++ [e]⟩ := by
  obtain ⟨next, batch, fits, behind, start, done⟩ := inv.hand
  have first_le := inv.start
  rw [inHand, List.length_cons] at batch fits behind
  rw [List.map_cons, List.range'_succ] at batch
  obtain ⟨own, later⟩ := List.cons.inj batch
  have small := fits (List.cons_ne_nil e rest)
  have after : offsetOfInt64 (e.offset + 1) = next + 1 := by
    rw [offsetOfInt64_succ (by rw [show offsetOfInt64 e.offset = next from own]; omega)]
    exact congrArg (· + 1) own
  rw [after] at position
  refine ⟨fifo, ?_, next + 1, later, fun _ => ?_, ?_, by omega, ?_⟩ <;> dsimp only
  · omega
  · omega
  · omega
  · intro offset low before
    by_cases here : offset = next
    · exact ⟨e, List.mem_append_right _ (List.mem_singleton_self e), own.trans here.symm⟩
    · obtain ⟨e', member, same⟩ := done offset low (by omega)
      exact ⟨e', List.mem_append_left _ member, same⟩

theorem Inv.process (inv : Inv cfg first s) (arrives : Bool) (now : Time) (written : Bool) :
    Inv cfg first (s.step cfg (.process arrives now written)) := by
  simp only [WorkerRun.step]
  split
  · exact inv
  · rename_i e rest inHand
    cases arrives with
    | false => exact inv.done inHand inv.fifo (.inl rfl)
    | true =>
      obtain ⟨scheduler, moved⟩ := s.broker.commit_moves cfg (e.offset + 1) now written
      exact inv.done inHand (scheduler.trans inv.fifo) moved

theorem Inv.leave (inv : Inv cfg first s) (may : s.MayLeave cfg) :
    Inv cfg first (s.step cfg .leave) := by
  obtain ⟨next, hand⟩ := inv.hand
  have behind := hand.behind
  have start := hand.start
  rcases may with again | before
  · have low : s.broker.fetchStart cfg ≤ next := by
      by_cases none : s.batch.length = 0
      · omega
      · obtain ⟨e, member, same⟩ := (hand.mem_iff next).mpr (by omega)
        exact same ▸ again e member
    exact ⟨inv.fifo, inv.start, next, rfl, fun none => absurd rfl none, .inl low, start, hand.done⟩
  · refine ⟨inv.fifo, inv.start, next + s.batch.length, rfl, fun none => absurd rfl none,
      .inl ?_, by omega, ?_⟩
    · simp only [WorkerRun.step]
      omega
    · intro offset low high
      by_cases early : offset < next
      · exact hand.done offset low early
      · obtain ⟨e, member, same⟩ := (hand.mem_iff offset).mpr (by omega)
        obtain ⟨e', processed, equal⟩ := before e member
        exact ⟨e', processed, equal.trans same⟩

theorem Inv.step (inv : Inv cfg first s) {event : WorkerEvent} (alone : s.Alone cfg event)
    (careful : s.Careful cfg event) : Inv cfg first (s.step cfg event) := by
  cases event with
  | others b => exact inv.respected (alone.scheduler.trans inv.fifo) alone.position
  | consume rounds now written => exact inv.consume alone
  | process arrives now written => exact inv.process arrives now written
  | leave => exact inv.leave careful

/-- A worker that drops messages below its position for the first time has skipped
them. -/
theorem Inv.careful (inv : Inv cfg first s) {event : WorkerEvent}
    (covered : (s.step cfg event).Covered cfg first) : s.Careful cfg event := by
  cases event with
  | leave =>
    obtain ⟨next, hand⟩ := inv.hand
    have inside : ∀ e ∈ s.batch, next ≤ e.position ∧ e.position < next + s.batch.length :=
      fun e member => (hand.mem_iff e.position).mp ⟨e, member, rfl⟩
    rcases hand.behind with behind | ahead
    · exact .inl fun e member => behind.trans (inside e member).1
    · refine .inr fun e member => ?_
      obtain ⟨e', processed, same⟩ := covered e.position (hand.start.trans (inside e member).1)
        (Nat.lt_of_lt_of_eq (inside e member).2 ahead.symm)
      simp only [WorkerRun.step, List.append_nil] at processed
      exact ⟨e', processed, same⟩
  | _ => trivial

/-- A worker that is alone in its group never skips a message exactly when, each time
it gives up a batch, the position is not ahead of it or the batch was processed
before. -/
theorem at_least_once_iff {b : Broker} (fifo : b.schedulers cfg.topic = some .fifo)
    (events : List WorkerEvent) (alone : Runs.Guarded (step cfg) (Alone cfg) (start b) events) :
    (∀ s ∈ Runs.states (step cfg) (start b) events, s.Covered cfg (b.fetchStart cfg)) ↔
      Runs.Guarded (step cfg) (Careful cfg) (start b) events := by
  have inv : Inv cfg (b.fetchStart cfg) (start b) :=
    ⟨fifo, Nat.le_refl _, b.fetchStart cfg, rfl, fun none => absurd rfl none,
      .inl (Nat.le_refl _), Nat.le_refl _,
      fun offset low high => absurd (Nat.lt_of_le_of_lt low high) (Nat.lt_irrefl _)⟩
  exact Runs.states_good_iff_guarded (fun _ inv => Inv.covered inv)
    (fun _ _ inv alone careful => Inv.step inv alone careful)
    (fun _ _ inv _ covered => Inv.careful inv covered) events _ inv alone

def sampleWorker : ConsumerConfig := ⟨[116], [103], 0⟩

def oneFetch : WorkerEvent := .consume [quietRound, quietRound] 10 true

/-- One message: it is covered when the worker leaves after processing it, and lost
when it leaves with the answer of `Consume`. -/
theorem at_least_once_iff_one_message :
    (∀ s ∈ Runs.states (step sampleWorker) (start smallMessage)
      [oneFetch, .process true 11 true, .leave],
        s.Covered sampleWorker (smallMessage.fetchStart sampleWorker)) ∧
    ¬∀ s ∈ Runs.states (step sampleWorker) (start smallMessage) [oneFetch, .leave],
        s.Covered sampleWorker (smallMessage.fetchStart sampleWorker) := by
  have fifo : smallMessage.schedulers sampleWorker.topic = some .fifo := by decide +kernel
  have quiet : (start smallMessage).Alone sampleWorker oneFetch := by
    intro round member b
    have same : round = quietRound :=
      List.eq_of_mem_replicate (show round ∈ List.replicate 2 quietRound from member)
    rw [same]
    exact ⟨rfl, rfl⟩
  have done : (Runs.final (step sampleWorker) (start smallMessage)
    [oneFetch, .process true 11 true]).MayLeave sampleWorker := by decide +kernel
  have early : ¬(step sampleWorker (start smallMessage) oneFetch).MayLeave sampleWorker := by
    decide +kernel
  exact ⟨(at_least_once_iff fifo [oneFetch, .process true 11 true, .leave]
      ⟨quiet, trivial, trivial, trivial⟩).mpr ⟨trivial, trivial, done, trivial⟩,
    fun covered => early ((at_least_once_iff fifo [oneFetch, .leave]
      ⟨quiet, trivial, trivial⟩).mp covered).2.1⟩

end WorkerRun

end NyaQueue
