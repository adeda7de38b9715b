import NyaQueue.Codec
import NyaQueue.Wal
import NyaQueue.PriorityIndex

/-!
# Partitions

Model of `pkg/broker/partition.go`.  A partition is a log, the offset the next
message gets, the codec of its compressed batches and, outside FIFO mode, a
priority index.  A record is told apart by its first byte only: `0xBA` opens a
compressed batch, `0xFF` redirects to one, anything else is a plain message
whose first byte is its priority.

What the environment decides during a call (clock readings, stale pool
buffers, the outcome of the disk write) is passed in.
-/

set_option autoImplicit false

namespace NyaQueue

open BigEndian Slice

def walBatchMagic : UInt8 := 0xBA
def walRedirectMagic : UInt8 := 0xFF

inductive ScheduleMode where
  | fifo
  | strictPriority
  | dqnAdaptive
  deriving DecidableEq, Repr

structure Partition where
  id : Int
  log : Log
  nextOffset : Nat
  priorityIndex : Option PriorityIndex
  scheduleMode : ScheduleMode
  batchCodec : Option Codec

inductive AppendError where
  /-- WAL write batch -/
  | walWriteBatch (cause : WalError)
  /-- batch compress -/
  | batchCompress (cause : CodecError)
  /-- WAL write compressed batch -/
  | walWriteCompressed (cause : WalError)
  deriving DecidableEq, Repr

inductive ReadError where
  /-- WAL read offset %d -/
  | walRead (offset : Nat) (cause : WalError)
  /-- empty WAL entry at offset %d -/
  | emptyEntry (offset : Nat)
  /-- corrupt redirect at offset %d -/
  | corruptRedirect (offset : Nat)
  /-- WAL read batch at offset %d -/
  | walReadBatch (offset : Nat) (cause : WalError)
  /-- not a batch record -/
  | notBatchRecord
  /-- batch index %d out of range [0, %d) -/
  | batchIndexOutOfRange (index count : Nat)
  /-- decompress batch record -/
  | decompressBatch (cause : CodecError)
  /-- corrupt batch payload at message %d -/
  | corruptPayload (message : Nat)
  /-- corrupt batch payload: message %d truncated -/
  | messageTruncated (message : Nat)
  /-- unmarshal message %d in batch -/
  | unmarshalInBatch (message : Nat) (cause : MessageError)
  | unmarshal (cause : MessageError)
  deriving DecidableEq, Repr

/-- What one append call meets: the clock at its start and when the index is
updated, the pool buffers it is handed, and whether the log write goes through. -/
structure AppendEnv where
  appendTime : Int64
  indexTime : Time
  pooled : Nat → Bytes
  disk : Bool

def Message.stamp (m : Message) (appendTime : Int64) : Message :=
  { m with header := { m.header with appendTime := appendTime } }

/-- The assembly loop of `AppendBatch`: one record a message, numbered from
`next` on. -/
def assemble (env : AppendEnv) : Nat → Nat → List Message → List (Nat × Bytes)
  | _, _, [] => []
  | i, next, m :: rest =>
      (next, (m.stamp env.appendTime).marshalPooled (env.pooled i)) ::
        assemble env (i + 1) (next + 1) rest

def totalPayload (msgs : List Message) : Nat :=
  (msgs.map fun m => m.encodedSize + 4).sum

/-- The payload loop of `AppendBatchCompressed`: length prefix and encoding of
each message, written one after the other into a preallocated buffer. -/
def fillPayload : Bytes → Nat → List Message → Bytes
  | payload, _, [] => payload
  | payload, off, m :: rest =>
      let encoded := m.marshal
      let payload := overwrite payload off (putUint32 (UInt32.ofNat encoded.length))
      let payload := overwrite payload (off + 4) encoded
      fillPayload payload (off + 4 + encoded.length) rest

def leaderRecord (count : Nat) (compressed : Bytes) : Bytes :=
  walBatchMagic :: (putUint32 (UInt32.ofNat count) ++ compressed)

def redirectRecord (baseOffset index : Nat) : Bytes :=
  walRedirectMagic ::
    (putUint64 (UInt64.ofNat baseOffset) ++ putUint32 (UInt32.ofNat index))

/-- The redirect loop of `AppendBatchCompressed`: `count` records from index
`i` and offset `next` on. -/
def redirects (baseOffset : Nat) : Nat → Nat → Nat → List (Nat × Bytes)
  | _, _, 0 => []
  | i, next, count + 1 =>
      (next, redirectRecord baseOffset i) :: redirects baseOffset (i + 1) (next + 1) count

/-- The index update after a successful write. -/
def indexMessages (now : Time) : List (Message × Nat) → PriorityIndex → PriorityIndex
  | [], pi => pi
  | (m, offset) :: rest, pi =>
      indexMessages now rest (pi.add m.header.priority.toNat (int64OfOffset offset) now).1

/-- The walk over the length prefixes of a batch payload, with `ahead`
messages still to be skipped. -/
def walkPayload (payload : Bytes) : Nat → Nat → Nat → Except ReadError Message
  | ahead, i, off =>
      if payload.length < off + 4 then .error (.corruptPayload i)
      else
        let msgLen := (uint32 (payload.drop off)).toNat
        match ahead with
        | 0 =>
            if payload.length < off + 4 + msgLen then .error (.messageTruncated i)
            else
              match unmarshalMessage ((payload.drop (off + 4)).take msgLen) with
              | .error cause => .error (.unmarshalInBatch i cause)
              | .ok msg => .ok { msg with batchDecoded := true }
        | ahead + 1 => walkPayload payload ahead (i + 1) (off + 4 + msgLen)

variable {payload : Bytes} {off : Nat}

theorem walkPayload_short (short : payload.length < off + 4) (ahead i : Nat) :
    walkPayload payload ahead i off = .error (.corruptPayload i) := by
  unfold walkPayload
  exact if_pos short

theorem walkPayload_last (inside : off + 4 ≤ payload.length) (i : Nat) :
    walkPayload payload 0 i off =
      if payload.length < off + 4 + (uint32 (payload.drop off)).toNat then
        .error (.messageTruncated i)
      else ((unmarshalMessage ((payload.drop (off + 4)).take
        (uint32 (payload.drop off)).toNat)).mapError (.unmarshalInBatch i)).map
          fun msg => { msg with batchDecoded := true } := by
  unfold walkPayload
  rw [if_neg (Nat.not_lt.mpr inside)]
  dsimp only
  split
  · rfl
  · cases unmarshalMessage ((payload.drop (off + 4)).take (uint32 (payload.drop off)).toNat) <;> rfl

theorem walkPayload_next (inside : off + 4 ≤ payload.length) (ahead i : Nat) :
    walkPayload payload (ahead + 1) i off =
      walkPayload payload ahead (i + 1) (off + 4 + (uint32 (payload.drop off)).toNat) := by
  rw [walkPayload, if_neg (Nat.not_lt.mpr inside)]

namespace Partition

/-- `NewPartition` on a log that has been opened. -/
def new (id : Int) (log : Log) (mode : ScheduleMode) : Partition where
  id := id
  log := log
  nextOffset := log.lastIndex + 1
  priorityIndex := if mode = .fifo then none else some (newPriorityIndex 50000)
  scheduleMode := mode
  batchCodec := none

def setBatchCodec (p : Partition) (codec : Codec) : Partition :=
  { p with batchCodec := some codec }

/-- The state after a write of `count` records that did not go through: the
offsets have been handed out all the same. -/
def advance (p : Partition) (count : Nat) : Partition :=
  { p with nextOffset := p.nextOffset + count }

/-- The state after a write that went through and the index update. -/
def stored (p : Partition) (log : Log) (msgs : List Message) (now : Time) : Partition :=
  { p.advance msgs.length with
    log := log
    priorityIndex := p.priorityIndex.map
      (indexMessages now (msgs.zip (List.range' p.nextOffset msgs.length))) }

def appendBatch (p : Partition) (msgs : List Message) (env : AppendEnv) :
    Except AppendError (List Nat) × Partition :=
  if msgs.isEmpty then (.ok [], p)
  else
    let batch := assemble env 0 p.nextOffset msgs
    match p.log.writeBatch batch env.disk with
    | .error cause => (.error (.walWriteBatch cause), p.advance msgs.length)
    | .ok log => (.ok (batch.map Prod.fst), p.stored log msgs env.indexTime)

def appendBatchCompressed (p : Partition) (msgs : List Message) (codec : Codec)
    (env : AppendEnv) : Except AppendError (List Nat) × Partition :=
  if msgs.isEmpty then (.ok [], p)
  else
    let stamped := msgs.map fun m => m.stamp env.appendTime
    let payload := fillPayload (List.replicate (totalPayload stamped) 0) 0 stamped
    match codec.encode payload with
    | .error cause => (.error (.batchCompress cause), p)
    | .ok compressed =>
        let baseOffset := p.nextOffset
        let batch := (baseOffset, leaderRecord msgs.length compressed) ::
          redirects baseOffset 1 (baseOffset + 1) (msgs.length - 1)
        match p.log.writeBatch batch env.disk with
        | .error cause => (.error (.walWriteCompressed cause), p.advance msgs.length)
        | .ok log => (.ok (batch.map Prod.fst), p.stored log msgs env.indexTime)

def readFromBatchData (p : Partition) (data : Bytes) (index : Nat) : Except ReadError Message :=
  if data.length < 5 ∨ data.head? ≠ some walBatchMagic then .error .notBatchRecord
  else
    let count := (uint32 (data.drop 1)).toNat
    if count ≤ index then .error (.batchIndexOutOfRange index count)
    else
      let compressed := data.drop 5
      match p.batchCodec with
      | some codec =>
          match codec.decode compressed with
          | .error cause => .error (.decompressBatch cause)
          | .ok payload => walkPayload payload index 0 0
      | none => walkPayload compressed index 0 0

def readFromBatch (p : Partition) (batchOffset index : Nat) : Except ReadError Message :=
  match p.log.read batchOffset with
  | .error cause => .error (.walReadBatch batchOffset cause)
  | .ok data => p.readFromBatchData data index

def read (p : Partition) (offset : Nat) : Except ReadError Message :=
  match p.log.read offset with
  | .error cause => .error (.walRead offset cause)
  | .ok [] => .error (.emptyEntry offset)
  | .ok (tag :: body) =>
      let data := tag :: body
      if tag = walRedirectMagic then
        if data.length < 13 then .error (.corruptRedirect offset)
        else
          p.readFromBatch (uint64 (data.drop 1)).toNat (uint32 (data.drop 9)).toNat
      else if tag = walBatchMagic then p.readFromBatchData data 0
      else
        match unmarshalMessage data with
        | .error cause => .error (.unmarshal cause)
        | .ok msg => .ok msg

def highWaterMark (p : Partition) : Nat :=
  if p.nextOffset = 0 then 0 else p.nextOffset - 1

/-- `TruncateFront`; the log may refuse the index. -/
def truncateFront (p : Partition) (offset : Nat) : Except WalError Unit × Partition :=
  if offset < 1 then (.ok (), p)
  else
    match p.log.truncateFront offset with
    | .error cause => (.error cause, p)
    | .ok log => (.ok (), { p with log := log })

end Partition

/-- What a retention scan has found so far: where to cut (zero for nowhere),
and how many records and bytes that removes. -/
structure Scan where
  truncateAt : Nat
  deleted : Nat
  deletedBytes : Nat
  deriving DecidableEq, Repr

/-- The scan of `TruncateBefore` from `off` on, over at most `fuel` records. -/
def scanBefore (log : Log) (cutoff : Int64) : Nat → Nat → Scan → Scan
  | 0, _, scan => scan
  | fuel + 1, off, scan =>
      match log.read off with
      | .error _ => scan
      | .ok data =>
          match unmarshalHeader data with
          | .error _ => scan
          | .ok hdr =>
              if cutoff ≤ hdr.timestamp then scan
              else scanBefore log cutoff fuel (off + 1)
                ⟨off + 1, scan.deleted + 1, scan.deletedBytes + data.length⟩

/-- The size loop of `TruncateOldestUntilSize`. -/
def totalSize (log : Log) : Nat → Nat → Nat → Nat
  | 0, _, total => total
  | fuel + 1, off, total =>
      match log.read off with
      | .error _ => total
      | .ok data => totalSize log fuel (off + 1) (total + data.length)

/-- The cutting loop of `TruncateOldestUntilSize`; `total` is what remains. -/
def scanOldest (log : Log) (maxBytes : Int) : Nat → Nat → Int → Scan → Scan
  | 0, _, _, scan => scan
  | fuel + 1, off, total, scan =>
      if total ≤ maxBytes then scan
      else
        match log.read off with
        | .error _ => scan
        | .ok data => scanOldest log maxBytes fuel (off + 1) (total - data.length)
            ⟨off + 1, scan.deleted + 1, scan.deletedBytes + data.length⟩

namespace Partition

/-- The last step of both retention scans: cut if anything was found. -/
def applyScan (p : Partition) (scan : Scan) : Except WalError (Nat × Nat) × Partition :=
  if 0 < scan.truncateAt then
    match p.log.truncateFront scan.truncateAt with
    | .error cause => (.error cause, p)
    | .ok log => (.ok (scan.deleted, scan.deletedBytes), { p with log := log })
  else (.ok (scan.deleted, scan.deletedBytes), p)

def truncateBefore (p : Partition) (cutoff : Int64) :
    Except WalError (Nat × Nat) × Partition :=
  let firstIdx := p.log.firstIndex?
  if firstIdx = 0 then (.ok (0, 0), p)
  else p.applyScan (scanBefore p.log cutoff (p.nextOffset - firstIdx) firstIdx ⟨0, 0, 0⟩)

def truncateOldestUntilSize (p : Partition) (maxBytes : Int) :
    Except WalError (Nat × Nat) × Partition :=
  let firstIdx := p.log.firstIndex?
  if firstIdx = 0 then (.ok (0, 0), p)
  else
    let total := totalSize p.log (p.nextOffset - firstIdx) firstIdx 0
    if (total : Int) ≤ maxBytes then (.ok (0, 0), p)
    else p.applyScan (scanOldest p.log maxBytes (p.nextOffset - firstIdx) firstIdx total ⟨0, 0, 0⟩)

end Partition

end NyaQueue
