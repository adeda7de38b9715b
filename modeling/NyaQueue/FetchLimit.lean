import NyaQueue.ReadBack
import NyaQueue.ServerConsume

/-!
# Responses that the RPC layer refuses

The loop of `Consume` stops once the keys and values it has collected reach the
byte limit, so it counts neither the rest of the envelopes nor how far the last
message goes beyond the limit.  The response is then held against a send limit
that is set elsewhere, after its offset has been committed.
-/

set_option autoImplicit false

namespace NyaQueue

open Protobuf

/-! ## The size of a response -/

theorem MessageEnvelope.payload_le_encode (e : MessageEnvelope) :
    e.payload ≤ e.encode.length := by
  have key := length_le_bytesField 2 e.key
  have value := length_le_bytesField 3 e.value
  unfold payload encode
  simp only [List.length_append]
  omega

theorem ConsumeResponse.payload_le_encode (resp : ConsumeResponse) :
    (resp.messages.map MessageEnvelope.payload).sum ≤ resp.encode.length := by
  unfold encode
  induction resp.messages with
  | nil => exact Nat.le_refl _
  | cons e rest ih =>
    have first := e.payload_le_encode
    have field := length_le_messageField 1 e.encode
    rw [List.map_cons, List.sum_cons, List.flatMap_cons, List.length_append]
    omega

theorem encode_take_le (messages : List MessageEnvelope) {k n : Nat} (shorter : k ≤ n) :
    (ConsumeResponse.encode ⟨messages.take k⟩).length ≤
      (ConsumeResponse.encode ⟨messages.take n⟩).length := by
  have start : (messages.take n).take k = messages.take k := by
    rw [List.take_take, Nat.min_eq_left shorter]
  have split : messages.take k ++ (messages.take n).drop k = messages.take n := by
    rw [← start, List.take_append_drop]
  unfold ConsumeResponse.encode
  dsimp only
  rw [← split, List.flatMap_append, List.length_append]
  exact Nat.le_add_right ..

/-! ## What the loop collects -/

/-- What `ConsumeFrom` has to offer in the rounds of a fetch, until it fails or
there is no more to wait for. -/
def arrivals (req : ConsumeRequest) (fetchMinBytes : Int) :
    List ConsumeRound → Broker → Nat → Nat → List MessageEnvelope
  | [], _, _, _ => []
  | round :: rest, b, offset, total =>
      match (round.others b).consumeFrom req.topic req.partition.toInt offset round.threshold with
      | (.error cause, b') =>
          if cause = .next .noMessages ∧ total < fetchMinBytes ∧ round.beforeDeadline then
            arrivals req fetchMinBytes rest b' offset total
          else []
      | (.ok (msg, nextOffset), b') =>
          envelope msg nextOffset :: arrivals req fetchMinBytes rest b' nextOffset
            (total + (msg.key.length + msg.value.length))

/-- The messages up to the one with which the limit is reached. -/
def upTo (maxBytes : Int) : Nat → List MessageEnvelope → List MessageEnvelope
  | _, [] => []
  | total, e :: rest =>
      if total < maxBytes then e :: upTo maxBytes (total + e.payload) rest else []

theorem consumeLoop_envelopes (req : ConsumeRequest) (maxBytes fetchMinBytes : Int)
    (rounds : List ConsumeRound) : ∀ s s' : Fetch,
      Server.consumeLoop req maxBytes fetchMinBytes rounds s = some (.ok (), s') →
        s'.envelopes = s.envelopes ++ upTo maxBytes s.totalBytes
          (arrivals req fetchMinBytes rounds s.broker s.currentOffset s.totalBytes) := by
  induction rounds with
  | nil =>
    intro s s' ran
    unfold Server.consumeLoop at ran
    split at ran
    · cases ran
    · cases ran
      rw [arrivals, upTo, List.append_nil]
  | cons round rest ih =>
    intro s s' ran
    unfold Server.consumeLoop at ran
    unfold arrivals
    by_cases below : (s.totalBytes : Int) < maxBytes
    · rw [if_pos below] at ran
      cases consumed : (round.others s.broker).consumeFrom req.topic req.partition.toInt
          s.currentOffset round.threshold with
      | mk result b =>
        rw [consumed] at ran
        cases result with
        | error cause =>
          dsimp only at ran ⊢
          by_cases nothing : cause = .next .noMessages
          · rw [if_pos nothing] at ran
            by_cases waiting : (s.totalBytes : Int) < fetchMinBytes ∧
                round.beforeDeadline = true
            · rw [if_pos waiting] at ran
              rw [if_pos ⟨nothing, waiting⟩]
              exact ih _ s' ran
            · rw [if_neg waiting] at ran
              cases ran
              rw [if_neg fun both => waiting both.2, upTo, List.append_nil]
          · rw [if_neg nothing] at ran
            rw [if_neg fun both => nothing both.1, upTo, List.append_nil]
            split at ran
            · cases ran
              rfl
            · cases ran
        | ok handed =>
          obtain ⟨msg, nextOffset⟩ := handed
          dsimp only at ran ⊢
          rw [ih _ s' ran, upTo, if_pos below, List.append_assoc]
          rfl
    · rw [if_neg below] at ran
      cases ran
      have none : ∀ messages, upTo maxBytes s.totalBytes messages = [] := by
        intro messages
        cases messages with
        | nil => rfl
        | cons e later => rw [upTo, if_neg below]
      rw [none, List.append_nil]

theorem consumeLoop_returns (req : ConsumeRequest) (maxBytes fetchMinBytes : Int)
    (rounds : List ConsumeRound) : ∀ s : Fetch,
      Server.consumeLoop req maxBytes fetchMinBytes rounds s = none →
        rounds.countP (fun round => !round.beforeDeadline) ≤
          (arrivals req fetchMinBytes rounds s.broker s.currentOffset s.totalBytes).length := by
  induction rounds with
  | nil => exact fun s _ => Nat.zero_le _
  | cons round rest ih =>
    intro s running
    unfold Server.consumeLoop at running
    unfold arrivals
    split at running
    · cases consumed : (round.others s.broker).consumeFrom req.topic req.partition.toInt
          s.currentOffset round.threshold with
      | mk result b =>
        rw [consumed] at running
        cases result with
        | error cause =>
          dsimp only at running ⊢
          split at running
          · rename_i nothing
            split at running
            · rename_i waiting
              have early : round.beforeDeadline = true := waiting.2
              rw [if_pos ⟨nothing, waiting⟩, List.countP_cons_of_neg (by simp [early])]
              exact ih _ running
            · cases running
          · split at running <;> cases running
        | ok handed =>
          obtain ⟨msg, nextOffset⟩ := handed
          dsimp only at running ⊢
          have later := ih _ running
          rw [List.countP_cons, List.length_cons]
          dsimp only at later
          split <;> omega
    · cases running

def payloads (messages : List MessageEnvelope) : Nat :=
  (messages.map MessageEnvelope.payload).sum

/-- All messages but the last one stay below the limit together. -/
def Below (maxBytes : Int) (total : Nat) (messages : List MessageEnvelope) (k : Nat) : Prop :=
  ∀ j < k, ((total + payloads (messages.take j) : Nat) : Int) < maxBytes

theorem upTo_eq_take (maxBytes : Int) (messages : List MessageEnvelope) : ∀ total : Nat,
    ∃ n ≤ messages.length, upTo maxBytes total messages = messages.take n ∧
      Below maxBytes total messages n ∧
      ∀ k ≤ messages.length, Below maxBytes total messages k → k ≤ n := by
  induction messages with
  | nil =>
    intro total
    exact ⟨0, Nat.le_refl 0, rfl, fun j impossible => absurd impossible (Nat.not_lt_zero j),
      fun k inside _ => inside⟩
  | cons e rest ih =>
    intro total
    have shift : ∀ j, total + payloads ((e :: rest).take (j + 1)) =
        total + e.payload + payloads (rest.take j) := by
      intro j
      simp only [payloads, List.take_succ_cons, List.map_cons, List.sum_cons]
      omega
    rw [upTo]
    by_cases first : (total : Int) < maxBytes
    · obtain ⟨n, inside, taken, below, most⟩ := ih (total + e.payload)
      rw [if_pos first, taken]
      refine ⟨n + 1, Nat.succ_le_succ inside, rfl, ?_, ?_⟩
      · intro j before
        cases j with
        | zero => simpa [payloads] using first
        | succ j =>
          rw [shift]
          exact below j (Nat.lt_of_succ_lt_succ before)
      · intro k inside' below'
        cases k with
        | zero => exact Nat.zero_le _
        | succ k =>
          refine Nat.succ_le_succ (most k (Nat.le_of_succ_le_succ inside') ?_)
          intro j before
          rw [← shift]
          exact below' (j + 1) (Nat.succ_lt_succ before)
    · rw [if_neg first]
      refine ⟨0, Nat.zero_le _, rfl, fun j impossible => absurd impossible (Nat.not_lt_zero j),
        ?_⟩
      intro k _ below
      by_contra positive
      have := below 0 (by omega)
      rw [List.take_zero] at this
      exact first this

theorem upTo_fits_iff (maxBytes limit : Int) (messages : List MessageEnvelope) :
    ((ConsumeResponse.encode ⟨upTo maxBytes 0 messages⟩).length : Int) ≤ limit ↔
      ∀ k ≤ messages.length, Below maxBytes 0 messages k →
        ((ConsumeResponse.encode ⟨messages.take k⟩).length : Int) ≤ limit := by
  obtain ⟨n, inside, taken, below, most⟩ := upTo_eq_take maxBytes messages 0
  rw [taken]
  constructor
  · intro fits k inside' below'
    have shorter := encode_take_le messages (most k inside' below')
    omega
  · intro fits
    exact fits n inside below

theorem consume_ok {b b' : Broker} {req : ConsumeRequest} {rounds : List ConsumeRound} {now : Time}
    {written : Bool} {resp : ConsumeResponse}
    (ran : Server.consume b req rounds now written = some (.ok resp, b')) :
    resp = ⟨upTo (Server.fetchLimit b.snap.cfg req) 0
      (arrivals req b.snap.cfg.fetchMinBytes rounds b
        (b.loadOffset req.group req.topic req.partition.toInt) 0)⟩ := by
  unfold Server.consume at ran
  dsimp only at ran
  split at ran
  · cases ran
  · cases ran
  · rename_i s fetched
    cases ran
    rw [consumeLoop_envelopes _ _ _ _ _ _ fetched, List.nil_append]

/-- The messages that a fetch collects, up to the one with which it reaches its
limit, fit the send limit in their encoding. -/
def FitsSendLimit (cfg : Config) (req : ConsumeRequest) (messages : List MessageEnvelope) : Prop :=
  ∀ k ≤ messages.length, Below (Server.fetchLimit cfg req) 0 messages k →
    ((ConsumeResponse.encode ⟨messages.take k⟩).length : Int) ≤ cfg.maxFetchBytes + 1024

/-- The RPC layer sends the response of a `Consume` exactly when the messages
that were there to be fetched fit the send limit. -/
theorem response_sent_iff_fits {b b' : Broker} {req : ConsumeRequest} {rounds : List ConsumeRound}
    {now : Time} {written : Bool} {resp : ConsumeResponse}
    (ran : Server.consume b req rounds now written = some (.ok resp, b')) :
    (newServer b.snap.cfg).sends resp = true ↔
      FitsSendLimit b.snap.cfg req (arrivals req b.snap.cfg.fetchMinBytes rounds b
        (b.loadOffset req.group req.topic req.partition.toInt) 0) := by
  rw [consume_ok ran, Server.sends, decide_eq_true_eq]
  exact upTo_fits_iff ..

/-- A topic with one message, on which the others do nothing. -/
def smallMessage : Broker :=
  let b := Broker.new sampleLibrary defaultConfig (some (OffsetStore.newOffsetStore ∅ 0))
  let b := (b.createTopic [116] .fifo [Log.empty]).getD b
  (b.publish [116] (sampleMessage 5 7 118) ⟨0, false, 8, steadyEnv 9⟩).2.2

def quietRound : ConsumeRound := ⟨id, 0, false⟩

theorem response_sent_iff_fits_small :
    ∃ resp b', Server.consume smallMessage ⟨[116], [103], 0, 0⟩ [quietRound, quietRound] 10 true =
        some (.ok resp, b') ∧
      ((newServer smallMessage.snap.cfg).sends resp = true ↔
        FitsSendLimit smallMessage.snap.cfg ⟨[116], [103], 0, 0⟩
          (arrivals ⟨[116], [103], 0, 0⟩ smallMessage.snap.cfg.fetchMinBytes
            [quietRound, quietRound] smallMessage (smallMessage.loadOffset [103] [116] 0) 0)) := by
  have answered : ((Server.consume smallMessage ⟨[116], [103], 0, 0⟩ [quietRound, quietRound] 10
      true).bind fun out => out.1.toOption).isSome = true := by decide +kernel
  obtain ⟨resp, shown⟩ := Option.isSome_iff_exists.mp answered
  obtain ⟨⟨answer, b'⟩, ran, same⟩ := Option.bind_eq_some_iff.mp shown
  cases answer with
  | error cause => cases same
  | ok resp' => exact ⟨resp', b', ran, response_sent_iff_fits ran⟩

/-- One message of 1100 bytes, published under a limit of 2048 bytes a message
and one byte a fetch. -/
def largeMessage : Broker :=
  let cfg := { defaultConfig with maxMessageBytes := 2048, maxFetchBytes := 1 }
  let b := Broker.new sampleLibrary cfg (some (OffsetStore.newOffsetStore ∅ 0))
  let b := (b.createTopic [116] .fifo [Log.empty]).getD b
  (b.publish [116] { sampleMessage 5 7 118 with value := List.replicate 1100 118 }
    ⟨0, false, 8, steadyEnv 9⟩).2.2

/-- The message is committed, so that no later `Consume` returns it, and the
response that holds it is refused. -/
theorem committed_message_refused :
    largeMessage.snap.cfg.validate = .ok () ∧
    ∃ resp b', Server.consume largeMessage ⟨[116], [103], 0, 0⟩ [quietRound] 10 true =
        some (.ok resp, b') ∧
      resp.messages.map MessageEnvelope.payload = [1101] ∧
      b'.loadOffset [103] [116] 0 = 2 ∧
      (newServer largeMessage.snap.cfg).sends resp = false := by
  have shown : (Server.consume largeMessage ⟨[116], [103], 0, 0⟩ [quietRound] 10 true).map
      (fun out => (out.1.toOption.map fun resp => resp.messages.map MessageEnvelope.payload,
        out.2.loadOffset [103] [116] 0)) = some (some [1101], 2) := by decide +kernel
  obtain ⟨⟨answer, b'⟩, ran, seen⟩ := Option.map_eq_some_iff.mp shown
  obtain ⟨answered, committed⟩ := Prod.mk.inj seen
  refine ⟨by decide +kernel, ?_⟩
  cases answer with
  | error cause => cases answered
  | ok resp =>
      have payload : resp.messages.map MessageEnvelope.payload = [1101] := Option.some.inj answered
      refine ⟨resp, b', ran, payload, committed, ?_⟩
      have size := resp.payload_le_encode
      rw [payload] at size
      have limit : (newServer largeMessage.snap.cfg).maxSendMsgSize = 1025 := by
        decide +kernel
      rw [Server.sends, limit, decide_eq_false_iff_not]
      simp only [List.sum_cons, List.sum_nil] at size
      omega

/-- `Consume` answers once more rounds have come after its deadline than there were
messages to fetch. -/
theorem consume_returns {b : Broker} {req : ConsumeRequest} {rounds : List ConsumeRound}
    (ends : (arrivals req b.snap.cfg.fetchMinBytes rounds b
      (b.loadOffset req.group req.topic req.partition.toInt) 0).length <
        rounds.countP fun round => !round.beforeDeadline) (now : Time) (written : Bool) :
    (Server.consume b req rounds now written).isSome = true := by
  unfold Server.consume
  dsimp only
  split
  · rename_i running
    have := consumeLoop_returns _ _ _ _ _ running
    dsimp only at this
    omega
  · rfl
  · rfl

theorem consume_returns_small :
    (Server.consume smallMessage ⟨[116], [103], 0, 0⟩ [quietRound, quietRound] 10 true).isSome =
      true :=
  consume_returns (by decide +kernel) 10 true

end NyaQueue
