import NyaQueue.Transport
import NyaQueue.Lib.Protobuf

/-!
# The consume path of the server

Model of `Server.Consume` (`pkg/transport/server.go`) and of the encoding of its
response (`pkg/proto`).  The handler calls `ConsumeFrom` once a round; between
two rounds, and while it waits for messages, everybody else works on the broker.
-/

set_option autoImplicit false

namespace NyaQueue

open Protobuf

structure ConsumeRequest where
  topic : Bytes
  group : Bytes
  partition : Int32
  maxBytes : Int32

structure MessageEnvelope where
  offset : Int64
  key : Bytes
  value : Bytes
  priority : UInt32
  timestamp : Int64
  produceTime : Int64
  appendTime : Int64
  deriving DecidableEq

structure ConsumeResponse where
  messages : List MessageEnvelope
  deriving DecidableEq

def MessageEnvelope.encode (e : MessageEnvelope) : Bytes :=
  varintField 1 e.offset.toUInt64.toNat ++ (bytesField 2 e.key ++ (bytesField 3 e.value ++
    (varintField 4 e.priority.toNat ++ (varintField 5 e.timestamp.toUInt64.toNat ++
      (varintField 6 e.produceTime.toUInt64.toNat ++
        varintField 7 e.appendTime.toUInt64.toNat)))))

def ConsumeResponse.encode (resp : ConsumeResponse) : Bytes :=
  resp.messages.flatMap fun e => messageField 1 e.encode

/-- The bytes of a message that count towards the limit of a fetch. -/
def MessageEnvelope.payload (e : MessageEnvelope) : Nat := e.key.length + e.value.length

/-- What is delivered with the response that `ConsumeFrom` returns `msg` for. -/
def envelope (msg : Message) (nextOffset : Nat) : MessageEnvelope where
  offset := int64OfOffset nextOffset - 1
  key := msg.key
  value := msg.value
  priority := msg.header.priority.toUInt32
  timestamp := msg.header.timestamp
  produceTime := msg.header.produceTime
  appendTime := msg.header.appendTime

/-- `LoadOffset`, and the offset one that the handlers take when it fails. -/
def Broker.loadOffset (b : Broker) (group topicName : Bytes) (partIdx : Int) : Nat :=
  match b.offsetStore with
  | none => 1
  | some store =>
      match store.load group topicName partIdx with
      | .error _ => 1
      | .ok off => offsetOfInt64 off

/-- What one round of the loop meets: what the others have done to the broker
since the last one, the threshold of a DQN scheduler, and the clock. -/
structure ConsumeRound where
  others : Broker → Broker
  threshold : Int
  beforeDeadline : Bool

/-- The variables of the loop. -/
structure Fetch where
  broker : Broker
  currentOffset : Nat
  envelopes : List MessageEnvelope
  totalBytes : Nat
  lastOffset : Int64

namespace Server

def fetchLimit (cfg : Config) (req : ConsumeRequest) : Int :=
  let maxBytes := if req.maxBytes.toInt ≤ 0 then cfg.maxFetchBytes else req.maxBytes.toInt
  if 0 < cfg.maxFetchBytes ∧ cfg.maxFetchBytes < maxBytes then cfg.maxFetchBytes else maxBytes

/-- The loop, as far as the rounds go; `none` if it has not ended by then. -/
def consumeLoop (req : ConsumeRequest) (maxBytes fetchMinBytes : Int) :
    List ConsumeRound → Fetch → Option (Except ConsumeError Unit × Fetch)
  | [], s => if s.totalBytes < maxBytes then none else some (.ok (), s)
  | round :: rest, s =>
      if s.totalBytes < maxBytes then
        match (round.others s.broker).consumeFrom req.topic req.partition.toInt s.currentOffset
            round.threshold with
        | (.error cause, b) =>
            let s := { s with broker := b }
            if cause = .next .noMessages then
              if s.totalBytes < fetchMinBytes ∧ round.beforeDeadline then
                consumeLoop req maxBytes fetchMinBytes rest s
              else some (.ok (), s)
            else if 0 < s.envelopes.length then some (.ok (), s)
            else some (.error cause, s)
        | (.ok (msg, nextOffset), b) =>
            consumeLoop req maxBytes fetchMinBytes rest
              { broker := b
                currentOffset := nextOffset
                envelopes := s.envelopes ++ [envelope msg nextOffset]
                totalBytes := s.totalBytes + (msg.key.length + msg.value.length)
                lastOffset := int64OfOffset nextOffset }
      else some (.ok (), s)

/-- `Consume`; a failed commit is only logged. -/
def consume (b : Broker) (req : ConsumeRequest) (rounds : List ConsumeRound) (now : Time)
    (written : Bool) : Option (Except ConsumeError ConsumeResponse × Broker) :=
  let cfg := b.snap.cfg
  let start : Fetch :=
    { broker := b
      currentOffset := b.loadOffset req.group req.topic req.partition.toInt
      envelopes := []
      totalBytes := 0
      lastOffset := -1 }
  match consumeLoop req (fetchLimit cfg req) cfg.fetchMinBytes rounds start with
  | none => none
  | some (.error cause, s) => some (.error cause, s.broker)
  | some (.ok (), s) =>
      let b' := if 0 ≤ s.lastOffset then
          (s.broker.commit req.group req.topic req.partition.toInt s.lastOffset now written).2
        else s.broker
      some (.ok ⟨s.envelopes⟩, b')

/-- The RPC layer sends a response only up to the size it was set up with. -/
def sends (s : Server) (resp : ConsumeResponse) : Bool :=
  decide ((resp.encode.length : Int) ≤ s.maxSendMsgSize)

end Server

end NyaQueue
