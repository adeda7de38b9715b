import NyaQueue.Config
import NyaQueue.OffsetStore
import NyaQueue.Scheduler

/-!
# The broker

Model of the produce, consume and retention paths of `pkg/broker/broker.go`.
A call works on the config snapshot it loaded at its start, which need not be
the current one when it appends; such calls take the snapshot as an argument.
The balancer's choice, the state of the backpressure controller, clocks and
disks are decided by the environment of a call.
-/

set_option autoImplicit false

namespace NyaQueue

structure ConfigSnapshot where
  cfg : Config
  codec : Codec
  /-- the capacity of the I/O gate -/
  gate : Int

structure Topic where
  name : Bytes
  partitions : List Partition

structure Broker where
  snap : ConfigSnapshot
  topics : Bytes → Option Topic
  schedulers : Bytes → Option ScheduleMode
  offsetStore : Option OffsetStore

inductive PublishError where
  /-- message exceeds MaxMessageBytes: size %d > limit %d -/
  | messageTooLarge (size limit : Int)
  /-- compress message value -/
  | compressMessage (cause : CodecError)
  /-- topic %q not found -/
  | topicNotFound (topic : Bytes)
  /-- backpressure: partition overloaded, try again later -/
  | throttled
  /-- partition %d out of range [0, %d) -/
  | partitionOutOfRange (id : Int) (count : Nat)
  /-- append to partition %d -/
  | append (partition : Int) (cause : AppendError)
  /-- the context ended while waiting for the I/O gate -/
  | gate
  deriving DecidableEq

inductive ConsumeError where
  /-- topic %q not found -/
  | topicNotFound (topic : Bytes)
  /-- partition %d out of range [0, %d) -/
  | partitionOutOfRange (id : Int) (count : Nat)
  /-- no scheduler configured for topic %q -/
  | noScheduler (topic : Bytes)
  /-- scheduler.Next topic=%q part=%d -/
  | next (cause : NextError)
  /-- decompress message value -/
  | decompressMessage (cause : CodecError)
  /-- commit offset topic=%q part=%d -/
  | commit (cause : StoreError)
  deriving DecidableEq

namespace Topic

/-- `Partition(id)`; the error carries the bounds it was checked against. -/
def partition (t : Topic) (id : Int) : Except (Int × Nat) Partition :=
  if id < 0 then .error (id, t.partitions.length)
  else
    match t.partitions[id.toNat]? with
    | none => .error (id, t.partitions.length)
    | some p => .ok p

def setPartition (t : Topic) (id : Int) (p : Partition) : Topic :=
  { t with partitions := t.partitions.set id.toNat p }

end Topic

/-- What one `Publish` meets. -/
structure PublishEnv where
  partIdx : Int
  throttled : Bool
  produceTime : Int64
  append : AppendEnv

structure PublishResult where
  partition : Int := 0
  offset : Nat := 0
  err : Option PublishError := none

/-- What one `PublishBatch` meets: for each message the balancer's choice and
whether that partition is closed by backpressure, and for each partition
whether the gate admits its group and how the append goes. -/
structure BatchEnv where
  produceTime : Int64
  partIdx : Nat → Int
  throttled : Nat → Bool
  gate : Int → Bool
  append : Int → AppendEnv

/-- What one `ConsumeBatch` meets: the thresholds of a DQN scheduler, and the
clock and the database at the commit. -/
structure ConsumeEnv where
  threshold : Nat → Int
  now : Time
  written : Bool

def Message.stampProduce (m : Message) (produceTime : Int64) : Message :=
  { m with header := { m.header with produceTime := produceTime } }

def newGate (numIOGoroutines : Int) : Int := if numIOGoroutines ≤ 0 then 4 else numIOGoroutines

def tooLarge (cfg : Config) (m : Message) : Bool :=
  decide (0 < cfg.maxMessageBytes ∧ cfg.maxMessageBytes < m.key.length + m.value.length)

/-- The per-message compression of a batch that is not compressed as a whole. -/
def encodeValues (codec : Codec) : List Message → Except CodecError (List Message)
  | [] => .ok []
  | m :: rest =>
      match codec.encode m.value with
      | .error cause => .error cause
      | .ok packed =>
          match encodeValues codec rest with
          | .error cause => .error cause
          | .ok later => .ok ({ m with value := packed } :: later)

def appendOutcome (partIdx : Int) : Except AppendError (List Nat) → Except PublishError (List Nat)
  | .ok offsets => .ok offsets
  | .error cause => .error (.append partIdx cause)

/-- `appendPartitionBatch`: the group of messages that go to one partition. -/
def appendPartitionBatch (snap : ConfigSnapshot) (t : Topic) (partIdx : Int)
    (msgs : List Message) (env : AppendEnv) : Except PublishError (List Nat) × Topic :=
  match t.partition partIdx with
  | .error (id, count) => (.error (.partitionOutOfRange id count), t)
  | .ok p =>
      if snap.cfg.compressionType ≠ compressionNone ∧ 1 < msgs.length then
        let result := p.appendBatchCompressed msgs snap.codec env
        (appendOutcome partIdx result.1, t.setPartition partIdx result.2)
      else
        let encoded := if snap.cfg.compressionType ≠ compressionNone then
            encodeValues snap.codec msgs else .ok msgs
        match encoded with
        | .error cause => (.error (.compressMessage cause), t)
        | .ok msgs =>
            let result := p.appendBatch msgs env
            (appendOutcome partIdx result.1, t.setPartition partIdx result.2)

namespace Broker

def new (lib : CodecLibrary) (cfg : Config) (offsetStore : Option OffsetStore) : Broker where
  snap := { cfg := cfg, codec := newCodec lib cfg.compressionType,
            gate := newGate cfg.numIOGoroutines }
  topics _ := none
  schedulers _ := none
  offsetStore := offsetStore

def setTopic (b : Broker) (name : Bytes) (t : Topic) : Broker :=
  { b with topics := Function.update b.topics name (some t) }

/-- `CreateTopic` on the logs found in the data directory, one a partition,
with the scheduler factory of the application. -/
def createTopic (b : Broker) (name : Bytes) (mode : ScheduleMode) (logs : List Log) :
    Option Broker :=
  match b.topics name with
  | some _ => none
  | none =>
      let codec := if b.snap.cfg.compressionType ≠ compressionNone then some b.snap.codec else none
      let partitions := logs.mapIdx fun i log =>
        { Partition.new i log mode with batchCodec := codec }
      some { b.setTopic name { name := name, partitions := partitions } with
        schedulers := Function.update b.schedulers name (some mode) }

/-- `Publish` with the snapshot it has loaded; the message comes back as the
call leaves it. -/
def publishWith (snap : ConfigSnapshot) (b : Broker) (topicName : Bytes) (msg : Message)
    (env : PublishEnv) : Except PublishError (Int × Nat) × Message × Broker :=
  if tooLarge snap.cfg msg then
    (.error (.messageTooLarge (msg.key.length + msg.value.length) snap.cfg.maxMessageBytes), msg, b)
  else
    match snap.codec.encode msg.value with
    | .error cause => (.error (.compressMessage cause), msg, b)
    | .ok packed =>
        let msg := { msg with value := packed }
        match b.topics topicName with
        | none => (.error (.topicNotFound topicName), msg, b)
        | some t =>
            if env.throttled then (.error .throttled, msg, b)
            else
              match t.partition env.partIdx with
              | .error (id, count) => (.error (.partitionOutOfRange id count), msg, b)
              | .ok p =>
                  let msg := msg.stampProduce env.produceTime
                  let result := p.appendBatch [msg] env.append
                  let b' := b.setTopic topicName (t.setPartition env.partIdx result.2)
                  let msg := msg.stamp env.append.appendTime
                  match result.1 with
                  | .error cause => (.error (.append env.partIdx cause), msg, b')
                  | .ok offsets => (.ok (env.partIdx, offsets.headD 0), msg, b')

def publish (b : Broker) (topicName : Bytes) (msg : Message) (env : PublishEnv) :
    Except PublishError (Int × Nat) × Message × Broker :=
  publishWith b.snap b topicName msg env

/-- The outcome of the checks that `PublishBatch` makes for message `i`. -/
def checkMessage (cfg : Config) (env : BatchEnv) (i : Nat) (m : Message) : PublishResult :=
  if tooLarge cfg m then
    { err := some (.messageTooLarge (m.key.length + m.value.length) cfg.maxMessageBytes) }
  else if env.throttled i then { partition := env.partIdx i, err := some .throttled }
  else { partition := env.partIdx i }

/-- The messages admitted for partition `partIdx`, with their positions. -/
def group (cfg : Config) (env : BatchEnv) (msgs : List Message) (partIdx : Int) :
    List (Message × Nat) :=
  (msgs.zipIdx.filter fun entry => (checkMessage cfg env entry.2 entry.1).err.isNone ∧
    env.partIdx entry.2 = partIdx).map fun entry =>
      (entry.1.stampProduce env.produceTime, entry.2)

/-- The partitions that get a group, in the order of their first message. -/
def groupKeys (cfg : Config) (env : BatchEnv) (msgs : List Message) : List Int :=
  ((msgs.zipIdx.filter fun entry =>
    (checkMessage cfg env entry.2 entry.1).err.isNone).map fun entry => env.partIdx entry.2).dedup

/-- Enters the outcome of a group into the results of its messages. -/
def settle (outcome : Except PublishError (List Nat)) (batch : List (Message × Nat))
    (results : List PublishResult) : List PublishResult :=
  results.mapIdx fun i result =>
    match (batch.map Prod.snd).idxOf? i with
    | none => result
    | some j =>
        match outcome with
        | .error cause => { result with err := some cause }
        | .ok offsets => { result with offset := offsets.getD j 0 }

/-- The groups of a batch, one a partition, in the order given. -/
def appendGroups (snap : ConfigSnapshot) (env : BatchEnv) (msgs : List Message) (single : Bool) :
    List Int → List PublishResult → Topic → List PublishResult × Topic
  | [], results, t => (results, t)
  | partIdx :: rest, results, t =>
      let batch := group snap.cfg env msgs partIdx
      if single ∨ env.gate partIdx then
        let appended := appendPartitionBatch snap t partIdx (batch.map Prod.fst) (env.append partIdx)
        appendGroups snap env msgs single rest (settle appended.1 batch results) appended.2
      else appendGroups snap env msgs single rest (settle (.error .gate) batch results) t

/-- `PublishBatch` with the snapshot it has loaded.  Groups touch different
partitions, so their order does not matter. -/
def publishBatchWith (snap : ConfigSnapshot) (b : Broker) (topicName : Bytes)
    (msgs : List Message) (env : BatchEnv) : List PublishResult × Broker :=
  match b.topics topicName with
  | none => (msgs.map fun _ => { err := some (.topicNotFound topicName) }, b)
  | some t =>
      let results := msgs.mapIdx fun i m => checkMessage snap.cfg env i m
      let groups := groupKeys snap.cfg env msgs
      let appended := appendGroups snap env msgs (groups.length = 1) groups results t
      (appended.1, b.setTopic topicName appended.2)

def decompressMessage (b : Broker) (msg : Message) : Except CodecError Message :=
  if msg.batchDecoded then .ok msg
  else
    match b.snap.codec.decode msg.value with
    | .error cause => .error cause
    | .ok value => .ok { msg with value := value }

def consumeFrom (b : Broker) (topicName : Bytes) (partIdx : Int) (offset : Nat)
    (threshold : Int) : Except ConsumeError (Message × Nat) × Broker :=
  match b.topics topicName with
  | none => (.error (.topicNotFound topicName), b)
  | some t =>
      match t.partition partIdx with
      | .error (id, count) => (.error (.partitionOutOfRange id count), b)
      | .ok p =>
          match b.schedulers topicName with
          | none => (.error (.noScheduler topicName), b)
          | some mode =>
              let next := p.next mode threshold offset
              let b' := b.setTopic topicName (t.setPartition partIdx next.2)
              match next.1 with
              | .error cause => (.error (.next cause), b')
              | .ok (msg, nextOffset) =>
                  match b.decompressMessage msg with
                  | .error cause => (.error (.decompressMessage cause), b')
                  | .ok msg => (.ok (msg, nextOffset), b')

def commit (b : Broker) (group topicName : Bytes) (partIdx : Int) (offset : Int64) (now : Time)
    (written : Bool) : Except StoreError Unit × Broker :=
  match b.offsetStore with
  | none => (.ok (), b)
  | some store =>
      let result := store.commit group topicName partIdx offset now written
      (result.1, { b with offsetStore := some result.2 })

/-- Where `ConsumeBatch` starts: the committed offset, one if there is none, and
zero without an offset store. -/
def startOffset (b : Broker) (group topicName : Bytes) (partIdx : Int) : Nat :=
  match b.offsetStore with
  | none => 0
  | some store =>
      match store.load group topicName partIdx with
      | .error _ => 1
      | .ok off => offsetOfInt64 off

/-- The loop of `ConsumeBatch` with `fuel` rounds left; `i` counts the rounds. -/
def consumeLoop (topicName : Bytes) (partIdx : Int) (threshold : Nat → Int) :
    Nat → Nat → Broker → Nat → List Message → Nat →
      Except ConsumeError (List Message × Nat) × Broker
  | 0, _, b, _, msgs, lastOffset => (.ok (msgs, lastOffset), b)
  | fuel + 1, i, b, currentOffset, msgs, lastOffset =>
      match b.consumeFrom topicName partIdx currentOffset (threshold i) with
      | (.error cause, b') =>
          if cause = .next .noMessages then (.ok (msgs, lastOffset), b')
          else if msgs ≠ [] then (.ok (msgs, lastOffset), b')
          else (.error cause, b')
      | (.ok (msg, nextOff), b') =>
          consumeLoop topicName partIdx threshold fuel (i + 1) b' nextOff (msgs ++ [msg]) nextOff

/-- What `ConsumeBatch` returns; after a failed commit the messages come back
together with the error. -/
structure ConsumeResult where
  msgs : List Message
  lastOffset : Nat
  err : Option ConsumeError

def consumeBatch (b : Broker) (topicName group : Bytes) (partIdx : Int) (maxMessages : Int)
    (env : ConsumeEnv) : ConsumeResult × Broker :=
  let start := b.startOffset group topicName partIdx
  match consumeLoop topicName partIdx env.threshold maxMessages.toNat 0 b start [] 0 with
  | (.error cause, b') => (⟨[], 0, some cause⟩, b')
  | (.ok ([], _), b') => (⟨[], 0, some (.next .noMessages)⟩, b')
  | (.ok (msgs, lastOffset), b') =>
      match b'.commit group topicName partIdx (int64OfOffset lastOffset) env.now env.written with
      | (.error cause, b'') => (⟨msgs, lastOffset, some (.commit cause)⟩, b'')
      | (.ok (), b'') => (⟨msgs, lastOffset, none⟩, b'')

def applyConfig (lib : CodecLibrary) (b : Broker) (cfg : Config) :
    Except (List RuleError) Unit × Broker :=
  match cfg.validate with
  | .error errors => (.error errors, b)
  | .ok () =>
      let old := b.snap
      if old.cfg = cfg then (.ok (), b)
      else
        let codec := if cfg.compressionType ≠ old.cfg.compressionType then
            newCodec lib cfg.compressionType else old.codec
        let gate := if cfg.numIOGoroutines ≠ old.cfg.numIOGoroutines then
            newGate cfg.numIOGoroutines else old.gate
        (.ok (), { b with snap := { cfg := cfg, codec := codec, gate := gate } })

/-- What one tick of `retentionLoop` does to one partition. -/
def retain (cfg : Config) (offsetStore : Option OffsetStore) (topicName : Bytes) (now : Time)
    (p : Partition) : Partition :=
  let p := if 0 < cfg.retentionMaxAge then
      (p.truncateBefore (Int64.ofInt (now - cfg.retentionMaxAge))).2 else p
  let p := if 0 < cfg.retentionMaxBytes then
      (p.truncateOldestUntilSize cfg.retentionMaxBytes).2 else p
  if cfg.retentionMaxAge = 0 ∧ cfg.retentionMaxBytes = 0 then
    match offsetStore with
    | none => p
    | some store =>
        let floor := store.commitFloor topicName p.id
        if 1 < floor then (p.truncateFront (offsetOfInt64 floor)).2 else p
  else p

/-- One tick of `retentionLoop` on one topic. -/
def retentionTick (b : Broker) (topicName : Bytes) (now : Time) : Broker :=
  match b.topics topicName with
  | none => b
  | some t => b.setTopic topicName
      { t with partitions := t.partitions.map (retain b.snap.cfg b.offsetStore topicName now) }

end Broker

end NyaQueue
