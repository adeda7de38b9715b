import NyaQueue.BatchBookkeeping
import NyaQueue.Transport

/-!
# What the answers to a batch say

Both transports publish a batch with `PublishBatch` and then have one answer
for all of its messages.  `Accepts` says, of the state before the call, which
messages will be stored; the answers are truthful exactly when that is all of
them or none.
-/

set_option autoImplicit false

namespace NyaQueue

/-! ## Which appends succeed -/

/-- The next `count` records can be written to the log of `p`. -/
structure Partition.Writable (p : Partition) (count : Nat) (disk : Bool) : Prop where
  level : p.nextOffset = p.log.nextIndex
  healthy : disk = true
  room : p.log.nextIndex + count < 2 ^ 64

theorem AppendCall.run_ok_iff (p : Partition) (call : AppendCall) (nonempty : call.msgs ≠ []) :
    (∃ offsets, (call.run p).1 = .ok offsets) ↔
      (∃ batch, call.batch p = .ok batch) ∧ p.Writable call.msgs.length call.env.disk := by
  have positive : 0 < call.msgs.length := List.length_pos_iff.mpr nonempty
  rcases call.run_cases p nonempty with
    ⟨error, encoded, result⟩ | ⟨batch, encoded, length, offsets, outcome⟩
  · rw [result, encoded]
    simp
  · constructor
    · rintro ⟨handed, success⟩
      rcases outcome with ⟨cause, error, -, result⟩ | ⟨log, written, -⟩
      · rw [result] at success
        cases success
      · have grown := Log.nextIndex_writeBatch written
        have fits : log.nextIndex < 2 ^ 64 := log.next_fits
        refine ⟨⟨batch, encoded⟩, Partition.nextOffset_of_written written offsets positive,
          (Log.writeBatch_ok written).1, ?_⟩
        rwa [grown, length] at fits
    · rintro ⟨-, level, healthy, room⟩
      have ordered : Log.InOrder p.log.nextIndex batch := by
        rw [Log.inOrder_iff, offsets, length, level]
      rcases outcome with ⟨cause, error, failed, -⟩ | ⟨log, -, result⟩
      · obtain ⟨log, written⟩ := Log.writeBatch_healthy ordered (length ▸ room)
        rw [healthy, written] at failed
        cases failed
      · exact ⟨_, by rw [result]⟩

/-- The codec takes what a group has to write. -/
def Encodable (snap : ConfigSnapshot) (msgs : List Message) (env : AppendEnv) : Prop :=
  if usesBatch snap msgs = true then
    ∃ packed, snap.codec.encode (batchPayload msgs env) = .ok packed
  else ∃ stored, encodedGroup snap msgs = .ok stored

theorem appendOutcome_ok_iff (partIdx : Int) (result : Except AppendError (List Nat)) :
    (∃ offsets, appendOutcome partIdx result = .ok offsets) ↔ ∃ offsets, result = .ok offsets := by
  cases result <;> simp [appendOutcome]

theorem appendPartitionBatch_ok_iff (snap : ConfigSnapshot) (t : Topic) (partIdx : Int)
    {msgs : List Message} (nonempty : msgs ≠ []) (env : AppendEnv) :
    (∃ offsets, (appendPartitionBatch snap t partIdx msgs env).1 = .ok offsets) ↔
      ∃ p, t.partition partIdx = .ok p ∧ Encodable snap msgs env ∧
        p.Writable msgs.length env.disk := by
  unfold appendPartitionBatch
  cases found : t.partition partIdx with
  | error bounds => simp
  | ok p =>
    have here : ∀ accepts : Partition → Prop,
        (∃ q, (Except.ok p : Except (Int × Nat) Partition) = .ok q ∧ accepts q) ↔ accepts p := by
      simp
    rw [here]
    dsimp only
    unfold Encodable
    by_cases whole : snap.cfg.compressionType ≠ compressionNone ∧ 1 < msgs.length
    · have batched : usesBatch snap msgs = true := decide_eq_true whole
      rw [if_pos whole, if_pos batched, appendOutcome_ok_iff]
      have ran := (AppendCall.compressed msgs snap.codec env).run_ok_iff p nonempty
      refine ran.trans (and_congr ?_ Iff.rfl)
      unfold AppendCall.batch
      cases encoded : snap.codec.encode (batchPayload msgs env) <;> simp [encoded]
    · have single : ¬usesBatch snap msgs = true := by
        rw [usesBatch, decide_eq_true_eq]
        exact whole
      rw [if_neg whole, if_neg single]
      cases encoded : encodedGroup snap msgs with
      | error cause =>
        unfold encodedGroup at encoded
        simp [encoded]
      | ok stored =>
        have length := encodedGroup_length encoded
        have some : stored ≠ [] := by
          rintro rfl
          exact nonempty (List.length_eq_zero_iff.mp length.symm)
        have ran := (AppendCall.plain stored env).run_ok_iff p some
        unfold encodedGroup at encoded
        simp only [encoded]
        rw [appendOutcome_ok_iff, ← length]
        exact ran.trans (and_congr (by simp [AppendCall.batch]) Iff.rfl)

/-! ## Which messages are stored -/

namespace Broker

/-- The group for partition `id` gets a slot of the gate and is written. -/
structure BatchCall.Admits (call : BatchCall) (t : Topic) (id : Int) : Prop where
  slot : call.keys.length = 1 ∨ call.env.gate id = true
  written : ∃ p, t.partition id = .ok p ∧
    Encodable call.snap ((call.members id).map Prod.fst) (call.env.append id) ∧
    p.Writable (call.members id).length (call.env.append id).disk

/-- Message `i` passes the checks, and its group is admitted. -/
def BatchCall.Accepts (call : BatchCall) (b : Broker) (name : Bytes) (i : Nat) : Prop :=
  ∃ t m, b.topics name = some t ∧ call.msgs[i]? = some m ∧ tooLarge call.snap.cfg m = false ∧
    call.env.throttled i = false ∧ call.Admits t (call.env.partIdx i)

def BatchCall.Stores (call : BatchCall) (b b' : Broker) (name : Bytes) (i : Nat) : Prop :=
  ∃ id offset, (i, id, offset) ∈ call.stored b b' name

theorem checkMessage_clean_iff (cfg : Config) (env : BatchEnv) (i : Nat) (m : Message) :
    (checkMessage cfg env i m).err = none ↔ tooLarge cfg m = false ∧ env.throttled i = false := by
  unfold checkMessage
  cases tooLarge cfg m <;> cases env.throttled i <;> simp

variable {call : BatchCall} {t : Topic} {b : Broker} {name : Bytes}

theorem attempt_ok_iff {id : Int} (used : id ∈ call.keys) :
    (∃ offsets, (call.attempt t id).1 = .ok offsets) ↔ call.Admits t id := by
  unfold BatchCall.attempt
  have group := appendPartitionBatch_ok_iff call.snap t id (members_ne_nil used)
    (call.env.append id)
  rw [List.length_map] at group
  by_cases admitted : (call.keys.length = 1 : Bool) ∨ call.env.gate id = true
  · rw [if_pos admitted, group]
    rw [decide_eq_true_eq] at admitted
    exact ⟨fun written => ⟨admitted, written⟩, fun admits => admits.written⟩
  · rw [if_neg admitted]
    rw [decide_eq_true_eq] at admitted
    constructor
    · rintro ⟨offsets, impossible⟩
      cases impossible
    · intro admits
      exact absurd admits.slot admitted

theorem entered_clean_iff {i : Nat} {m : Message} (at_i : call.msgs[i]? = some m) :
    (entered (call.attempt t (call.env.partIdx i)).1 (call.members (call.env.partIdx i)) i
      (call.check i m)).err = none ↔
      (call.check i m).err = none ∧ call.Admits t (call.env.partIdx i) := by
  by_cases clean : (call.check i m).err = none
  · have used : call.env.partIdx i ∈ call.keys :=
      (mem_groupKeys_iff ..).mpr ⟨i, m, at_i, clean, rfl⟩
    have member : i ∈ (call.members (call.env.partIdx i)).map Prod.snd :=
      List.mem_map.mpr ⟨_, (mem_group_iff ..).mpr ⟨m, at_i, clean, rfl, rfl⟩, rfl⟩
    rw [← attempt_ok_iff used]
    unfold entered
    cases position : ((call.members (call.env.partIdx i)).map Prod.snd).idxOf? i with
    | none => exact absurd member (List.idxOf?_eq_none_iff.mp position)
    | some j =>
      cases (call.attempt t (call.env.partIdx i)).1 with
      | error cause => simp
      | ok offsets => simp [clean]
  · have outside : i ∉ (call.members (call.env.partIdx i)).map Prod.snd := by
      intro member
      obtain ⟨⟨m', k⟩, inside, rfl⟩ := List.mem_map.mp member
      obtain ⟨m₀, at_k, passed, -, -⟩ := (mem_group_iff ..).mp inside
      rw [at_i] at at_k
      cases at_k
      exact clean passed
    rw [entered_of_not_mem outside]
    exact ⟨fun passed => absurd passed clean, fun both => both.1⟩

theorem result_clean_iff (call : BatchCall) {i : Nat} {r : PublishResult}
    (result : (publishBatchWith call.snap b name call.msgs call.env).1[i]? = some r) :
    r.err = none ↔ call.Accepts b name i := by
  cases there : b.topics name with
  | none =>
    unfold publishBatchWith at result
    simp only [there, List.getElem?_map, Option.map_eq_some_iff] at result
    obtain ⟨m, -, rfl⟩ := result
    simp [BatchCall.Accepts, there]
  | some t =>
    obtain ⟨s, ended, final⟩ := publishBatchWith_ended call.snap there call.msgs call.env
    rw [final] at result
    dsimp only at result
    rw [ended.results i, Option.map_eq_some_iff] at result
    obtain ⟨m, at_i, rfl⟩ := result
    rw [entered_clean_iff at_i, BatchCall.check, checkMessage_clean_iff]
    constructor
    · rintro ⟨⟨small, accepting⟩, admits⟩
      exact ⟨t, m, there, at_i, small, accepting, admits⟩
    · rintro ⟨t', m', there', at_i', small, accepting, admits⟩
      cases there.symm.trans there'
      cases at_i.symm.trans at_i'
      exact ⟨⟨small, accepting⟩, admits⟩

theorem stores_iff_accepts (call : BatchCall) (b : Broker) (name : Bytes) {i : Nat}
    (inside : i < call.msgs.length) :
    call.Stores b (publishBatchWith call.snap b name call.msgs call.env).2 name i ↔
      call.Accepts b name i := by
  have books := publishBatchWith_bookkeeping call.snap b name call.msgs call.env
  have inside' : i < (publishBatchWith call.snap b name call.msgs call.env).1.length := by
    rw [books.one_each]
    exact inside
  have result := List.getElem?_eq_getElem inside'
  rw [← result_clean_iff call result]
  constructor
  · rintro ⟨id, offset, member⟩
    exact ((books.acknowledged i _ result id offset).mp member).1
  · intro clean
    exact ⟨_, _, (books.acknowledged i _ result _ _).mpr ⟨clean, rfl, rfl⟩⟩

end Broker

/-! ## The answers -/

theorem allFailed_iff (results : List PublishResult) :
    allFailed results = true ↔ ∀ r ∈ results, r.err ≠ none := by
  simp [allFailed, Option.isSome_iff_ne_none]

theorem Server.batchAnswer_isOk_iff (req : ProduceRequest) (results : List PublishResult) :
    (batchAnswer req results).isOk = true ↔ results = [] ∨ ∃ r ∈ results, r.err = none := by
  unfold batchAnswer
  cases first : results.findSome? PublishResult.err with
  | none =>
    have clean : ∀ r ∈ results, r.err = none := List.findSome?_eq_none_iff.mp first
    cases results with
    | nil => simp [Except.isOk, Except.toBool]
    | cons r rest => simp [Except.isOk, Except.toBool, clean r List.mem_cons_self]
  | some firstErr =>
    obtain ⟨r, member, failed⟩ := List.exists_of_findSome?_eq_some first
    have some : results ≠ [] := List.ne_nil_of_mem member
    dsimp only
    by_cases all : allFailed results = true
    · rw [if_pos all]
      rw [allFailed_iff] at all
      constructor
      · intro impossible
        cases impossible
      · rintro (empty | ⟨r', member', clean⟩)
        · exact absurd empty some
        · exact absurd clean (all r' member')
    · rw [if_neg all]
      rw [allFailed_iff] at all
      simp only [not_forall, not_not] at all
      obtain ⟨r', member', clean⟩ := all
      exact ⟨fun _ => .inr ⟨r', member', clean⟩, fun _ => rfl⟩

def HTTPProduceAnswer.isOk : HTTPProduceAnswer → Bool
  | .ok _ => true
  | _ => false

/-- The call of `PublishBatch` that a request leads to, on either transport. -/
def ProduceRequest.batchCall (req : ProduceRequest) (env : HandlerEnv) : Broker.BatchCall :=
  ⟨env.snap, req.messages.map (ProduceMessage.toMessage env.now), env.batch⟩

section Answers

variable (b : Broker) (req : ProduceRequest) (env : HandlerEnv)

theorem batchCall_length : (req.batchCall env).msgs.length = req.messages.length :=
  List.length_map _

theorem results_getElem {i : Nat} (inside : i < (Broker.publishBatchWith env.snap b req.topic
      (req.messages.map (ProduceMessage.toMessage env.now)) env.batch).1.length) :
    (Broker.publishBatchWith env.snap b req.topic
      (req.messages.map (ProduceMessage.toMessage env.now)) env.batch).1[i].err = none ↔
      (req.batchCall env).Accepts b req.topic i :=
  Broker.result_clean_iff (req.batchCall env) (List.getElem?_eq_getElem inside)

theorem results_length : (Broker.publishBatchWith env.snap b req.topic
      (req.messages.map (ProduceMessage.toMessage env.now)) env.batch).1.length =
    req.messages.length :=
  (Broker.publishBatchWith_bookkeeping ..).one_each.trans (List.length_map _)

theorem produceBatch_isOk_iff :
    (Server.produceBatch b req env).1.isOk = true ↔
      req.messages = [] ∨ ∃ i < req.messages.length, (req.batchCall env).Accepts b req.topic i := by
  unfold Server.produceBatch
  dsimp only
  rw [Server.batchAnswer_isOk_iff, ← List.length_eq_zero_iff, results_length,
    List.length_eq_zero_iff, List.exists_mem_iff_getElem]
  refine or_congr Iff.rfl ⟨?_, ?_⟩
  · rintro ⟨i, inside, clean⟩
    exact ⟨i, results_length b req env ▸ inside, (results_getElem b req env inside).mp clean⟩
  · rintro ⟨i, inside, accepted⟩
    rw [← results_length b req env] at inside
    exact ⟨i, inside, (results_getElem b req env inside).mpr accepted⟩

theorem produceBatch_stores_iff {i : Nat} (inside : i < req.messages.length) :
    (req.batchCall env).Stores b (Server.produceBatch b req env).2 req.topic i ↔
      (req.batchCall env).Accepts b req.topic i :=
  Broker.stores_iff_accepts (req.batchCall env) b req.topic
    (batchCall_length req env ▸ inside)

theorem handleProduce_broker :
    (HTTPServer.handleProduce b req.topic (some req.messages) env).2 =
      (Server.produceBatch b req env).2 := rfl

end Answers

def plainHandler (b : Broker) : HandlerEnv where
  snap := b.snap
  now := 7
  publish := ⟨0, false, 8, steadyEnv 9⟩
  batch := ⟨8, fun _ => 0, fun _ => false, fun _ => true, fun _ => steadyEnv 9⟩

end NyaQueue
