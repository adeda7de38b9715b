import NyaQueue.ClientRetries
import NyaQueue.ServerConsume
import NyaQueue.Consume
import NyaQueue.Lib.Runs

/-!
# The offsets in consumed envelopes

Both consume handlers compute the offset of an envelope as one less than the
offset that `ConsumeFrom` returns.  The FIFO scheduler returns the offset after
the message, the two priority schedulers return the offset of the message.  Any
number of handlers run here against each other and against the producers, and
each envelope is kept together with the position its message was read at.
-/

set_option autoImplicit false

namespace NyaQueue

/-! ## The handlers -/

/-- What a handler fetches, and how much of it. -/
structure FetchTarget where
  topic : Bytes
  group : Bytes
  partition : Int
  maxBytes : Int
  fetchMinBytes : Int

/-- How a round of a fetch ends: the loop goes on, or is over. -/
inductive FetchProgress where
  | more
  | done (result : Except ConsumeError Unit)

/-- The body of the loop, which the two handlers share. -/
def fetchOnce (target : FetchTarget) (threshold : Int) (beforeDeadline : Bool) (s : Fetch) :
    FetchProgress × Fetch :=
  match s.broker.consumeFrom target.topic target.partition s.currentOffset threshold with
  | (.error cause, b) =>
      let s := { s with broker := b }
      if cause = .next .noMessages then
        if s.totalBytes < target.fetchMinBytes ∧ beforeDeadline then (.more, s)
        else (.done (.ok ()), s)
      else if 0 < s.envelopes.length then (.done (.ok ()), s)
      else (.done (.error cause), s)
  | (.ok (msg, nextOffset), b) =>
      (.more,
        { broker := b
          currentOffset := nextOffset
          envelopes := s.envelopes ++ [envelope msg nextOffset]
          totalBytes := s.totalBytes + (msg.key.length + msg.value.length)
          lastOffset := int64OfOffset nextOffset })

/-- The loop, as far as the rounds go; `none` if it has not ended by then. -/
def fetchLoop (target : FetchTarget) :
    List ConsumeRound → Fetch → Option (Except ConsumeError Unit × Fetch)
  | [], s => if s.totalBytes < target.maxBytes then none else some (.ok (), s)
  | round :: rest, s =>
      if s.totalBytes < target.maxBytes then
        match fetchOnce target round.threshold round.beforeDeadline
            { s with broker := round.others s.broker } with
        | (.more, s') => fetchLoop target rest s'
        | (.done result, s') => some (result, s')
      else some (.ok (), s)

/-- The variables of a fetch before its first round. -/
def Fetch.start (b : Broker) (target : FetchTarget) : Fetch where
  broker := b
  currentOffset := b.loadOffset target.group target.topic target.partition
  envelopes := []
  totalBytes := 0
  lastOffset := -1

/-- The commit at the end of a fetch; its failure is only logged. -/
def Fetch.commit (s : Fetch) (target : FetchTarget) (now : Time) (written : Bool) : Broker :=
  if 0 ≤ s.lastOffset then
    (s.broker.commit target.group target.topic target.partition s.lastOffset now written).2
  else s.broker

/-- The broker when the handler answers: a fetch that failed commits nothing. -/
def Fetch.leave (s : Fetch) (target : FetchTarget) (now : Time) (written : Bool) :
    Except ConsumeError Unit → Broker
  | .error _ => s.broker
  | .ok () => s.commit target now written

def ConsumeRequest.target (req : ConsumeRequest) (cfg : Config) : FetchTarget where
  topic := req.topic
  group := req.group
  partition := req.partition.toInt
  maxBytes := Server.fetchLimit cfg req
  fetchMinBytes := cfg.fetchMinBytes

/-- The envelopes of an HTTP response have the fields of a `MessageEnvelope`. -/
abbrev HTTPMessageEnvelope := MessageEnvelope

/-- The path and query of an HTTP consume request, as `Atoi` reads its numbers;
`maxBytes` is absent when that fails. -/
structure HTTPConsumeQuery where
  topic : Bytes
  group : Bytes
  partition : Int
  maxBytes : Option Int

inductive HTTPConsumeAnswer where
  /-- status 200 -/
  | ok (messages : List HTTPMessageEnvelope)
  /-- status 500 -/
  | internalServerError (cause : ConsumeError)

namespace HTTPServer

def fetchLimit (cfg : Config) (query : HTTPConsumeQuery) : Int :=
  let maxBytes := match query.maxBytes with
    | some v => if 0 < v then v else cfg.maxFetchBytes
    | none => cfg.maxFetchBytes
  if 0 < cfg.maxFetchBytes ∧ cfg.maxFetchBytes < maxBytes then cfg.maxFetchBytes else maxBytes

end HTTPServer

def HTTPConsumeQuery.target (query : HTTPConsumeQuery) (cfg : Config) : FetchTarget where
  topic := query.topic
  group := query.group
  partition := query.partition
  maxBytes := HTTPServer.fetchLimit cfg query
  fetchMinBytes := cfg.fetchMinBytes

def HTTPServer.handleConsume (b : Broker) (query : HTTPConsumeQuery) (rounds : List ConsumeRound)
    (now : Time) (written : Bool) : Option (HTTPConsumeAnswer × Broker) :=
  let target := query.target b.snap.cfg
  match fetchLoop target rounds (Fetch.start b target) with
  | none => none
  | some (.error cause, s) => some (.internalServerError cause, s.broker)
  | some (.ok (), s) => some (.ok s.envelopes, s.commit target now written)

namespace Server

theorem consumeLoop_eq_fetchLoop (req : ConsumeRequest) (target : FetchTarget)
    (topic : target.topic = req.topic) (partition : target.partition = req.partition.toInt)
    (rounds : List ConsumeRound) : ∀ s : Fetch,
      consumeLoop req target.maxBytes target.fetchMinBytes rounds s =
        fetchLoop target rounds s := by
  induction rounds with
  | nil => intro s; rfl
  | cons round rest ih =>
    intro s
    rw [consumeLoop, fetchLoop, fetchOnce]
    by_cases below : (s.totalBytes : Int) < target.maxBytes
    · rw [if_pos below, if_pos below, topic, partition]
      dsimp only
      cases (round.others s.broker).consumeFrom req.topic req.partition.toInt s.currentOffset
          round.threshold with
      | mk result b =>
        cases result with
        | error cause =>
          dsimp only
          by_cases nothing : cause = .next .noMessages
          · rw [if_pos nothing, if_pos nothing]
            by_cases waiting : (s.totalBytes : Int) < target.fetchMinBytes ∧
                round.beforeDeadline = true
            · rw [if_pos waiting, if_pos waiting]
              exact ih _
            · rw [if_neg waiting, if_neg waiting]
          · rw [if_neg nothing, if_neg nothing]
            by_cases some : 0 < s.envelopes.length
            · rw [if_pos some, if_pos some]
            · rw [if_neg some, if_neg some]
        | ok handed => exact ih _
    · rw [if_neg below, if_neg below]

theorem consume_eq (b : Broker) (req : ConsumeRequest) (rounds : List ConsumeRound) (now : Time)
    (written : Bool) :
    Server.consume b req rounds now written =
      (fetchLoop (req.target b.snap.cfg) rounds (Fetch.start b (req.target b.snap.cfg))).map
        fun out => (out.1.map fun _ => ⟨out.2.envelopes⟩,
          out.2.leave (req.target b.snap.cfg) now written out.1) := by
  have loop := consumeLoop_eq_fetchLoop req (req.target b.snap.cfg) rfl rfl rounds
    (Fetch.start b (req.target b.snap.cfg))
  unfold Server.consume
  dsimp only [Fetch.start, ConsumeRequest.target] at loop ⊢
  rw [loop]
  cases fetchLoop _ rounds _ with
  | none => rfl
  | some out =>
    obtain ⟨result, s⟩ := out
    cases result <;> rfl

end Server

/-! ## What the calls keep -/

theorem Topic.Appended.extends {t t' : Topic} (appended : t.Appended t') :
    t.Related Partition.Extends t' := by
  cases appended with
  | none => exact .refl Partition.Extends.refl t
  | @call id p there call => exact .setPartition Partition.Extends.refl there (p.extends_run call)

theorem Partition.Popped.extends {p q : Partition} (popped : p.Popped q) : p.Extends q := by
  obtain ⟨pi, rfl⟩ := popped
  exact ⟨rfl, fun _ _ stored => stored⟩

namespace Broker

/-- `b'` has the config and the schedulers of `b`, and every record of `b`. -/
structure Keeps (b b' : Broker) : Prop where
  snap : b'.snap = b.snap
  schedulers : b'.schedulers = b.schedulers
  topics : ∀ name t, b.topics name = some t →
    ∃ t', b'.topics name = some t' ∧ t.Related Partition.Extends t'

variable (snap : ConfigSnapshot) (b : Broker) (name : Bytes)

theorem Keeps.refl : b.Keeps b :=
  ⟨rfl, rfl, fun _ t there => ⟨t, there, .refl Partition.Extends.refl t⟩⟩

theorem keeps_setTopic {b : Broker} {name : Bytes} {t t' : Topic} (there : b.topics name = some t)
    (grown : t.Related Partition.Extends t') : b.Keeps (b.setTopic name t') := by
  refine ⟨rfl, rfl, ?_⟩
  intro other u found
  by_cases same : other = name
  · subst same
    cases there.symm.trans found
    exact ⟨t', setTopic_topics_self .., grown⟩
  · refine ⟨u, ?_, .refl Partition.Extends.refl u⟩
    rw [← found]
    exact Function.update_of_ne same ..

theorem keeps_publishWith (msg : Message) (env : PublishEnv) :
    b.Keeps (publishWith snap b name msg env).2.2 := by
  cases there : b.topics name with
  | none =>
    rw [(publishWith_missing snap there msg env).1]
    exact .refl b
  | some t =>
    obtain ⟨t', appended, after⟩ := publishWith_appended snap there msg env
    rw [after]
    exact keeps_setTopic there appended.extends

theorem appendGroups_extends (env : BatchEnv) (msgs : List Message) (single : Bool)
    (chosen : List Int) : ∀ (results : List PublishResult) (t : Topic),
      t.Related Partition.Extends (appendGroups snap env msgs single chosen results t).2 := by
  induction chosen with
  | nil => intro results t; exact .refl Partition.Extends.refl t
  | cons partIdx rest ih =>
    intro results t
    unfold appendGroups
    dsimp only
    split
    · have first := (appendPartitionBatch_appended snap t partIdx
        ((group snap.cfg env msgs partIdx).map Prod.fst) (env.append partIdx)).extends
      exact first.trans (fun _ _ _ left right => left.trans right) (ih _ _)
    · exact ih _ t

theorem keeps_publishBatchWith (msgs : List Message) (env : BatchEnv) :
    b.Keeps (publishBatchWith snap b name msgs env).2 := by
  unfold publishBatchWith
  cases there : b.topics name with
  | none => exact .refl b
  | some t => exact keeps_setTopic there (appendGroups_extends ..)

theorem keeps_consumeFrom (partIdx : Int) (offset : Nat) (threshold : Int) :
    b.Keeps (b.consumeFrom name partIdx offset threshold).2 := by
  by_cases served : b.Served name partIdx
  · obtain ⟨t, p, mode, there, -, scheduler⟩ := served
    obtain ⟨t', popped, after⟩ := consumeFrom_popped scheduler there partIdx offset threshold
    rw [after]
    exact keeps_setTopic there (popped.imp fun _ _ => Partition.Popped.extends)
  · obtain ⟨cause, -, failed⟩ := consumeFrom_refused served
    rw [failed]
    exact .refl b

theorem keeps_commit (group name : Bytes) (partIdx : Int) (offset : Int64) (now : Time)
    (written : Bool) : b.Keeps (b.commit group name partIdx offset now written).2 := by
  unfold commit
  cases b.offsetStore with
  | none => exact .refl b
  | some store => exact ⟨rfl, rfl, (Keeps.refl b).topics⟩

end Broker

theorem Server.keeps_produce (b : Broker) (req : ProduceRequest) (env : HandlerEnv) :
    b.Keeps (Server.produce b req env).2 := by
  unfold Server.produce
  split
  · exact Broker.keeps_publishBatchWith ..
  · have single := Broker.keeps_publishWith env.snap b req.topic
      (ProduceMessage.toMessage env.now ⟨req.key, req.value, req.priority⟩) env.publish
    unfold Server.produceSingle
    dsimp only
    cases published : Broker.publishWith env.snap b req.topic
        (ProduceMessage.toMessage env.now ⟨req.key, req.value, req.priority⟩) env.publish with
    | mk result rest =>
      rw [published] at single
      cases result <;> exact single

theorem HTTPServer.keeps_handleProduce (b : Broker) (topic : Bytes)
    (body : Option (List HTTPProduceRecord)) (env : HandlerEnv) :
    b.Keeps (HTTPServer.handleProduce b topic body env).2 := by
  cases body with
  | none => exact .refl b
  | some records => exact Broker.keeps_publishBatchWith ..

/-! ## Producers and consumers at work -/

/-- A consume handler under way, with the positions its messages were read at;
`result` is set when its loop is over. -/
structure Handler where
  target : FetchTarget
  currentOffset : Nat
  envelopes : List MessageEnvelope
  positions : List Nat
  totalBytes : Nat
  lastOffset : Int64
  result : Option (Except ConsumeError Unit)

namespace Handler

def opened (b : Broker) (target : FetchTarget) : Handler where
  target := target
  currentOffset := (Fetch.start b target).currentOffset
  envelopes := []
  positions := []
  totalBytes := 0
  lastOffset := -1
  result := none

/-- The variables of its fetch, on the broker as it is now. -/
def fetch (h : Handler) (b : Broker) : Fetch :=
  ⟨b, h.currentOffset, h.envelopes, h.totalBytes, h.lastOffset⟩

/-- The position that a round reads its message at, if it gets one. -/
def readsAt (h : Handler) (b : Broker) (threshold : Int) : List Nat :=
  match (b.consumeFrom h.target.topic h.target.partition h.currentOffset threshold).1,
      b.schedulers h.target.topic with
  | .ok (_, nextOffset), some mode => [Partition.readAt mode h.currentOffset nextOffset]
  | _, _ => []

/-- The handler after a round that has left its fetch as `s`. -/
def after (h : Handler) (progress : FetchProgress) (s : Fetch) (read : List Nat) : Handler where
  target := h.target
  currentOffset := s.currentOffset
  envelopes := s.envelopes
  positions := h.positions ++ read
  totalBytes := s.totalBytes
  lastOffset := s.lastOffset
  result := match progress with
    | .more => none
    | .done result => some result

end Handler

/-- A message that a producer was told the offset of. -/
structure AckedMessage where
  topic : Bytes
  partition : Int
  offset : Nat

/-- An envelope that a consumer was sent, and where its message is stored. -/
structure SentEnvelope where
  topic : Bytes
  partition : Int
  position : Nat
  message : MessageEnvelope

def Handler.sent (h : Handler) : List SentEnvelope :=
  (h.envelopes.zip h.positions).map fun entry =>
    ⟨h.target.topic, h.target.partition, entry.2, entry.1⟩

theorem Handler.after_sent (h : Handler) (progress : FetchProgress) (s : Fetch)
    (read : List Nat) :
    (h.after progress s read).sent = (s.envelopes.zip (h.positions ++ read)).map fun entry =>
      ⟨h.target.topic, h.target.partition, entry.2, entry.1⟩ := rfl

/-- The messages that the results of a batch acknowledge. -/
def acksOf (topic : Bytes) (results : List PublishResult) : List AckedMessage :=
  (results.filter fun r => r.err.isNone).map fun r => ⟨topic, r.partition, r.offset⟩

/-- The messages that `Produce` acknowledges. -/
def Server.acks (b : Broker) (req : ProduceRequest) (env : HandlerEnv) : List AckedMessage :=
  if 0 < req.messages.length then
    acksOf req.topic (Broker.publishBatchWith env.snap b req.topic
      (req.messages.map (ProduceMessage.toMessage env.now)) env.batch).1
  else
    match (Broker.publishWith env.snap b req.topic
        (ProduceMessage.toMessage env.now ⟨req.key, req.value, req.priority⟩) env.publish).1 with
    | .error _ => []
    | .ok (partition, offset) => [⟨req.topic, partition, offset⟩]

/-- The messages that `handleProduce` acknowledges. -/
def HTTPServer.acks (b : Broker) (topic : Bytes) (body : Option (List HTTPProduceRecord))
    (env : HandlerEnv) : List AckedMessage :=
  match body with
  | none => []
  | some records => acksOf topic (Broker.publishBatchWith env.snap b topic
      (records.map (ProduceMessage.toMessage env.now)) env.batch).1

structure RpcRun where
  broker : Broker
  handlers : Nat → Option Handler
  acked : List AckedMessage
  sent : List SentEnvelope

inductive RpcEvent where
  | produce (req : ProduceRequest) (env : HandlerEnv)
  | handleProduce (topic : Bytes) (body : Option (List HTTPProduceRecord)) (env : HandlerEnv)
  /-- a consume request reaches the handler `id` -/
  | consume (id : Nat) (req : ConsumeRequest)
  | handleConsume (id : Nat) (query : HTTPConsumeQuery)
  /-- the loop of handler `id` comes to its condition -/
  | round (id : Nat) (threshold : Int) (beforeDeadline : Bool)
  /-- handler `id` commits and answers -/
  | answer (id : Nat) (now : Time) (written : Bool)

namespace RpcRun

def start (b : Broker) : RpcRun where
  broker := b
  handlers _ := none
  acked := []
  sent := []

def setHandler (s : RpcRun) (id : Nat) (h : Option Handler) : RpcRun :=
  { s with handlers := Function.update s.handlers id h }

def accept (s : RpcRun) (id : Nat) (target : FetchTarget) : RpcRun :=
  match s.handlers id with
  | some _ => s
  | none => s.setHandler id (some (.opened s.broker target))

/-- One round of a handler whose loop is not over. -/
def round (s : RpcRun) (id : Nat) (h : Handler) (threshold : Int) (beforeDeadline : Bool) :
    RpcRun :=
  if h.totalBytes < h.target.maxBytes then
    let once := fetchOnce h.target threshold beforeDeadline (h.fetch s.broker)
    { s with broker := once.2.broker }.setHandler id
      (some (h.after once.1 once.2 (h.readsAt s.broker threshold)))
  else s.setHandler id (some { h with result := some (.ok ()) })

/-- The answer of a handler whose loop is over. -/
def answer (s : RpcRun) (id : Nat) (h : Handler) (result : Except ConsumeError Unit) (now : Time)
    (written : Bool) : RpcRun :=
  { s with
    broker := (h.fetch s.broker).leave h.target now written result
    handlers := Function.update s.handlers id none
    sent := match result with
      | .error _ => s.sent
      | .ok () => s.sent ++ h.sent }

def step (s : RpcRun) : RpcEvent → RpcRun
  | .produce req env =>
      { s with
        broker := (Server.produce s.broker req env).2
        acked := s.acked ++ Server.acks s.broker req env }
  | .handleProduce topic body env =>
      { s with
        broker := (HTTPServer.handleProduce s.broker topic body env).2
        acked := s.acked ++ HTTPServer.acks s.broker topic body env }
  | .consume id req => s.accept id (req.target s.broker.snap.cfg)
  | .handleConsume id query => s.accept id (query.target s.broker.snap.cfg)
  | .round id threshold beforeDeadline =>
      match s.handlers id with
      | none => s
      | some h =>
          match h.result with
          | some _ => s
          | none => s.round id h threshold beforeDeadline
  | .answer id now written =>
      match s.handlers id with
      | none => s
      | some h =>
          match h.result with
          | none => s
          | some result => s.answer id h result now written

end RpcRun

/-! ## What every envelope says -/

/-- The offset that `ConsumeFrom` returns with the message at a position. -/
def returnedWith (mode : ScheduleMode) (position : Nat) : Nat :=
  if mode = .fifo then position + 1 else position

/-- The envelope is that of the message stored at its position. -/
def SentEnvelope.Carries (x : SentEnvelope) (b : Broker) (mode : ScheduleMode) : Prop :=
  ∃ t p raw msg, b.topics x.topic = some t ∧ t.partition x.partition = .ok p ∧
    p.read x.position = .ok raw ∧ b.decompressMessage raw = .ok msg ∧
    x.message = envelope msg (returnedWith mode x.position)

theorem SentEnvelope.Carries.kept {x : SentEnvelope} {b b' : Broker} {mode : ScheduleMode}
    (carries : x.Carries b mode) (keeps : b.Keeps b') : x.Carries b' mode := by
  obtain ⟨t, p, raw, msg, there, found, read, decompressed, same⟩ := carries
  obtain ⟨t', there', grown⟩ := keeps.topics _ t there
  obtain ⟨p', found', extends_⟩ := grown.forward _ p found
  refine ⟨t', p', raw, msg, there', found', Partition.read_of_extends extends_ read, ?_, same⟩
  rw [← decompressed]
  unfold Broker.decompressMessage
  rw [keeps.snap]

theorem fetchOnce_broker (target : FetchTarget) (threshold : Int) (beforeDeadline : Bool)
    (s : Fetch) : (fetchOnce target threshold beforeDeadline s).2.broker =
      (s.broker.consumeFrom target.topic target.partition s.currentOffset threshold).2 := by
  unfold fetchOnce
  cases s.broker.consumeFrom target.topic target.partition s.currentOffset threshold with
  | mk result b =>
    cases result with
    | error cause =>
      dsimp only
      split
      · split <;> rfl
      · split <;> rfl
    | ok handed => rfl

theorem keeps_fetchOnce (target : FetchTarget) (threshold : Int) (beforeDeadline : Bool)
    (s : Fetch) : s.broker.Keeps (fetchOnce target threshold beforeDeadline s).2.broker := by
  rw [fetchOnce_broker]
  exact Broker.keeps_consumeFrom ..

namespace Handler

variable {h : Handler} {b : Broker} {mode : ScheduleMode}

/-- Its envelopes are in step with its positions, and each is that of the
message at its position. -/
structure Sound (h : Handler) (b : Broker) (mode : ScheduleMode) : Prop where
  inStep : h.envelopes.length = h.positions.length
  carries : ∀ x ∈ h.sent, x.Carries b mode

theorem sound_opened (b : Broker) (target : FetchTarget) (mode : ScheduleMode) :
    (opened b target).Sound b mode :=
  ⟨rfl, fun x member => by cases member⟩

theorem Sound.kept {b' : Broker} (sound : h.Sound b mode) (keeps : b.Keeps b') :
    h.Sound b' mode :=
  ⟨sound.inStep, fun x member => (sound.carries x member).kept keeps⟩

/-- A round that gets no message leaves the envelopes alone; one that gets a
message adds its envelope and its position. -/
theorem round_adds (scheduler : b.schedulers h.target.topic = some mode) (threshold : Int)
    (beforeDeadline : Bool) :
    let s := (fetchOnce h.target threshold beforeDeadline (h.fetch b)).2
    (s.envelopes = h.envelopes ∧ h.readsAt b threshold = []) ∨
    ∃ e r, s.envelopes = h.envelopes ++ [e] ∧ h.readsAt b threshold = [r] ∧
      (SentEnvelope.mk h.target.topic h.target.partition r e).Carries b mode := by
  intro s
  cases consumed : b.consumeFrom h.target.topic h.target.partition h.currentOffset threshold with
  | mk result b' =>
    have once : s = (fetchOnce h.target threshold beforeDeadline (h.fetch b)).2 := rfl
    unfold fetchOnce at once
    rw [show (h.fetch b).broker.consumeFrom h.target.topic h.target.partition
      (h.fetch b).currentOffset threshold = _ from consumed] at once
    unfold readsAt
    rw [consumed, scheduler]
    cases result with
    | error cause =>
      refine .inl ⟨?_, rfl⟩
      rw [once]
      dsimp only
      split
      · split <;> rfl
      · split <;> rfl
    | ok handed =>
      obtain ⟨msg, nextOffset⟩ := handed
      refine .inr ⟨envelope msg nextOffset, _, by rw [once]; rfl, rfl, ?_⟩
      obtain ⟨t, p, -, there, found, -⟩ := Broker.consumeFrom_served consumed
      obtain ⟨⟨raw, read, decompressed⟩, follows⟩ :=
        Broker.consumeFrom_ok scheduler there found consumed
      refine ⟨t, p, raw, msg, there, found, read, decompressed, ?_⟩
      unfold returnedWith Partition.readAt
      by_cases fifo : mode = .fifo
      · simp only [if_pos fifo, follows fifo]
      · simp only [if_neg fifo]

theorem Sound.round (sound : h.Sound b mode)
    (scheduler : b.schedulers h.target.topic = some mode) (threshold : Int)
    (beforeDeadline : Bool) :
    let once := fetchOnce h.target threshold beforeDeadline (h.fetch b)
    (h.after once.1 once.2 (h.readsAt b threshold)).Sound once.2.broker mode := by
  intro once
  have keeps : b.Keeps once.2.broker :=
    keeps_fetchOnce h.target threshold beforeDeadline (h.fetch b)
  rcases round_adds scheduler threshold beforeDeadline with ⟨same, none⟩ | ⟨e, r, added, read, new⟩
  · rw [none]
    refine ⟨?_, ?_⟩
    · change once.2.envelopes.length = (h.positions ++ []).length
      rw [List.append_nil, ← sound.inStep]
      exact congrArg List.length same
    · intro x member
      rw [after_sent, List.append_nil, show once.2.envelopes = h.envelopes from same] at member
      exact (sound.carries x member).kept keeps
  · rw [read]
    have grown : once.2.envelopes = h.envelopes ++ [e] := added
    refine ⟨?_, ?_⟩
    · change once.2.envelopes.length = (h.positions ++ [r]).length
      rw [grown, List.length_append, List.length_append, sound.inStep]
      rfl
    · intro x member
      rw [after_sent, grown, List.zip_append sound.inStep, List.map_append] at member
      rcases List.mem_append.mp member with old | here
      · exact (sound.carries x old).kept keeps
      · rw [List.mem_singleton.mp here]
        exact new.kept keeps

end Handler

namespace RpcRun

variable {name : Bytes} {mode : ScheduleMode} {s : RpcRun}

/-- The scheduler of the topic is as it was, and every envelope of the topic is
that of the message at its position. -/
structure Sound (name : Bytes) (mode : ScheduleMode) (s : RpcRun) : Prop where
  scheduler : s.broker.schedulers name = some mode
  handlers : ∀ id h, s.handlers id = some h → h.target.topic = name → h.Sound s.broker mode
  sent : ∀ x ∈ s.sent, x.topic = name → x.Carries s.broker mode

variable {b : Broker} {h : Handler}

theorem sound_start (scheduler : b.schedulers name = some mode) :
    (start b).Sound name mode :=
  ⟨scheduler, fun _ _ none => (by cases none), fun _ member => (by cases member)⟩

theorem Sound.kept (sound : s.Sound name mode) (keeps : s.broker.Keeps b)
    (acked : List AckedMessage) : { s with broker := b, acked := acked }.Sound name mode where
  scheduler := (congrFun keeps.schedulers name).trans sound.scheduler
  handlers id h there topic := (sound.handlers id h there topic).kept keeps
  sent x member topic := (sound.sent x member topic).kept keeps

theorem Sound.setHandler (sound : s.Sound name mode) (id : Nat)
    (here : h.target.topic = name → h.Sound s.broker mode) :
    (s.setHandler id (some h)).Sound name mode := by
  refine ⟨sound.scheduler, ?_, sound.sent⟩
  intro id' h' there topic
  change Function.update s.handlers id (some h) id' = some h' at there
  by_cases same : id' = id
  · rw [same, Function.update_self] at there
    cases there
    exact here topic
  · rw [Function.update_of_ne same] at there
    exact sound.handlers id' h' there topic

theorem Sound.accept (sound : s.Sound name mode) (id : Nat) (target : FetchTarget) :
    (s.accept id target).Sound name mode := by
  unfold RpcRun.accept
  cases s.handlers id with
  | some h => exact sound
  | none => exact sound.setHandler id fun _ => Handler.sound_opened ..

theorem Sound.round (sound : s.Sound name mode) {id : Nat} (there : s.handlers id = some h)
    (threshold : Int) (beforeDeadline : Bool) :
    (s.round id h threshold beforeDeadline).Sound name mode := by
  unfold RpcRun.round
  split
  · have keeps : s.broker.Keeps
        (fetchOnce h.target threshold beforeDeadline (h.fetch s.broker)).2.broker :=
      keeps_fetchOnce h.target threshold beforeDeadline (h.fetch s.broker)
    refine (sound.kept keeps s.acked).setHandler id fun topic => ?_
    subst topic
    exact (sound.handlers id h there rfl).round sound.scheduler threshold beforeDeadline
  · refine sound.setHandler id fun topic => ?_
    obtain ⟨inStep, carries⟩ := sound.handlers id h there topic
    exact ⟨inStep, carries⟩

theorem Sound.answer (sound : s.Sound name mode) {id : Nat} (there : s.handlers id = some h)
    (result : Except ConsumeError Unit) (now : Time) (written : Bool) :
    (s.answer id h result now written).Sound name mode := by
  have keeps : s.broker.Keeps ((h.fetch s.broker).leave h.target now written result) := by
    cases result with
    | error cause => exact .refl _
    | ok done =>
      unfold Fetch.leave Fetch.commit
      dsimp only
      split
      · exact Broker.keeps_commit ..
      · exact .refl _
  have kept := sound.kept keeps s.acked
  refine ⟨kept.scheduler, ?_, ?_⟩
  · intro id' h' there' topic
    unfold RpcRun.answer at there'
    dsimp only at there'
    by_cases same : id' = id
    · rw [same, Function.update_self] at there'
      cases there'
    · rw [Function.update_of_ne same] at there'
      exact kept.handlers id' h' there' topic
  · intro x member topic
    cases result with
    | error cause => exact kept.sent x member topic
    | ok done =>
      rcases List.mem_append.mp member with old | new
      · exact kept.sent x old topic
      · have from_h : x.topic = h.target.topic := by
          obtain ⟨entry, -, rfl⟩ := List.mem_map.mp new
          rfl
        exact ((sound.handlers id h there (from_h ▸ topic)).kept keeps).carries x new

theorem sound_step (sound : s.Sound name mode) (event : RpcEvent) :
    (s.step event).Sound name mode := by
  cases event with
  | produce req env => exact sound.kept (Server.keeps_produce ..) _
  | handleProduce topic body env => exact sound.kept (HTTPServer.keeps_handleProduce ..) _
  | consume id req => exact sound.accept ..
  | handleConsume id query => exact sound.accept ..
  | round id threshold beforeDeadline =>
    simp only [step]
    cases there : s.handlers id with
    | none => exact sound
    | some h =>
      dsimp only
      cases h.result with
      | some result => exact sound
      | none => exact sound.round there threshold beforeDeadline
  | answer id now written =>
    simp only [step]
    cases there : s.handlers id with
    | none => exact sound
    | some h =>
      dsimp only
      cases h.result with
      | none => exact sound
      | some result => exact sound.answer there result now written

/-- The purpose of the offset in an envelope: it is the one that the producer
was told, and the next one is the position to commit. -/
def OffsetsMatch (name : Bytes) (s : RpcRun) : Prop :=
  ∀ x ∈ s.sent, x.topic = name → ∀ a ∈ s.acked, a.topic = x.topic → a.partition = x.partition →
    a.offset = x.position →
    x.message.offset = int64OfOffset a.offset ∧
      x.message.offset + 1 = int64OfOffset (a.offset + 1)

theorem int64OfOffset_succ (n : Nat) : int64OfOffset (n + 1) = int64OfOffset n + 1 := by
  unfold int64OfOffset
  rw [UInt64.ofNat_add]
  rfl

theorem carried_offset_iff {x : SentEnvelope} (carries : x.Carries b mode) :
    x.message.offset = int64OfOffset x.position ↔ mode = .fifo := by
  obtain ⟨t, p, raw, msg, -, -, -, -, same⟩ := carries
  have offset : x.message.offset = int64OfOffset (returnedWith mode x.position) - 1 := by
    rw [same]
    rfl
  rw [offset, returnedWith]
  by_cases fifo : mode = .fifo
  · rw [if_pos fifo, int64OfOffset_succ, Int64.add_sub_cancel]
    exact ⟨fun _ => fifo, fun _ => rfl⟩
  · rw [if_neg fifo]
    have less : int64OfOffset x.position - 1 ≠ int64OfOffset x.position := by grind
    exact ⟨fun same => absurd same less, fun same => absurd same fifo⟩

/-- In every run of producers and consumers, the envelopes of a FIFO topic carry
the acknowledged offset, and no envelope of a topic with another scheduler does. -/
theorem envelopes_carry_offset {b : Broker} (scheduler : b.schedulers name = some mode)
    (events : List RpcEvent) : ∀ s ∈ Runs.states step (start b) events,
      (mode = .fifo → OffsetsMatch name s) ∧
      ∀ x ∈ s.sent, x.topic = name → x.Carries s.broker mode ∧
        (x.message.offset = int64OfOffset x.position ↔ mode = .fifo) := by
  intro s member
  have sound : s.Sound name mode := Runs.invariant_of_step
    (fun (s : RpcRun) event (sound : s.Sound name mode) => sound_step sound event) events _
    (sound_start scheduler) s member
  refine ⟨?_, ?_⟩
  · intro fifo x sent topic a _ _ _ position
    have offset := (carried_offset_iff (sound.sent x sent topic)).mpr fifo
    rw [position, int64OfOffset_succ, offset]
    exact ⟨rfl, rfl⟩
  · intro x sent topic
    exact ⟨sound.sent x sent topic, carried_offset_iff (sound.sent x sent topic)⟩

/-- A topic with one empty partition. -/
def emptyTopic (mode : ScheduleMode) : Broker :=
  let b := Broker.new sampleLibrary defaultConfig none
  (b.createTopic [116] mode [Log.empty]).getD b

/-- One message is produced and consumed, over HTTP if `http` is set. -/
def producedAndConsumed (http : Bool) : List RpcEvent :=
  let snap := (emptyTopic .fifo).snap
  let batch : BatchEnv :=
    { partIdx := fun _ => 0, throttled := fun _ => false, gate := fun _ => true
      produceTime := 8, append := fun _ => steadyEnv 9 }
  [.produce { topic := [116], key := [107], value := [118], priority := 5 }
      ⟨snap, 7, ⟨0, false, 8, steadyEnv 9⟩, batch⟩,
    if http then .handleConsume 0 ⟨[116], [103], 0, none⟩ else .consume 0 ⟨[116], [103], 0, 0⟩,
    .round 0 0 false, .round 0 0 false, .answer 0 10 true]

/-- The offsets acknowledged, the positions sent, and the offsets sent. -/
def offsets (s : RpcRun) : List (Bytes × Int × Nat) × List (Bytes × Int × Nat) × List Int64 :=
  (s.acked.map fun a => (a.topic, a.partition, a.offset),
    s.sent.map fun x => (x.topic, x.partition, x.position), s.sent.map fun x => x.message.offset)

/-- On a FIFO topic the message acknowledged at offset 1 comes back with offset 1. -/
theorem envelopes_carry_offset_fifo :
    let b := emptyTopic .fifo
    (Runs.final step (start b) (producedAndConsumed false)).offsets =
      ([([116], 0, 1)], [([116], 0, 1)], [1]) ∧
    ∀ s ∈ Runs.states step (start b) (producedAndConsumed false),
      (ScheduleMode.fifo = .fifo → OffsetsMatch [116] s) ∧
      ∀ x ∈ s.sent, x.topic = [116] → x.Carries s.broker .fifo ∧
        (x.message.offset = int64OfOffset x.position ↔ ScheduleMode.fifo = .fifo) :=
  ⟨by decide +kernel, envelopes_carry_offset rfl (producedAndConsumed false)⟩

theorem not_match_of_offsets {s : RpcRun} {position : Nat} {offset : Int64}
    (outcome : s.offsets = ([(name, 0, position)], [(name, 0, position)], [offset]))
    (wrong : offset ≠ int64OfOffset position) : ¬ OffsetsMatch name s := by
  simp only [offsets, Prod.mk.injEq, List.map_eq_singleton_iff] at outcome
  obtain ⟨⟨a, acked, told⟩, ⟨x, sent, stored⟩, ⟨x', sent', carried⟩⟩ := outcome
  rw [sent] at sent'
  cases sent'
  intro matches_
  have both := (matches_ x (by rw [sent]; exact List.mem_singleton_self x) stored.1 a
    (by rw [acked]; exact List.mem_singleton_self a) (told.1.trans stored.1.symm)
    (told.2.1.trans stored.2.1.symm) (told.2.2.trans stored.2.2.symm)).1
  rw [carried, told.2.2] at both
  exact wrong both

/-- On a topic with strict priority the message acknowledged at offset 1 comes
back with offset 0, over either transport. -/
theorem priority_envelope_one_less :
    let b := emptyTopic .strictPriority
    let rpc := Runs.final step (start b) (producedAndConsumed false)
    let http := Runs.final step (start b) (producedAndConsumed true)
    rpc.offsets = ([([116], 0, 1)], [([116], 0, 1)], [0]) ∧ ¬ OffsetsMatch [116] rpc ∧
    http.offsets = ([([116], 0, 1)], [([116], 0, 1)], [0]) ∧ ¬ OffsetsMatch [116] http := by
  intro b rpc http
  have sentRpc : rpc.offsets = ([([116], 0, 1)], [([116], 0, 1)], [0]) := by decide +kernel
  have sentHttp : http.offsets = ([([116], 0, 1)], [([116], 0, 1)], [0]) := by decide +kernel
  exact ⟨sentRpc, not_match_of_offsets sentRpc (by decide), sentHttp,
    not_match_of_offsets sentHttp (by decide)⟩

end RpcRun

end NyaQueue
