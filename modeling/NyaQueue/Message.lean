import NyaQueue.Lib.BigEndian
import NyaQueue.Lib.Slice

/-!
# Messages and their wire format

Model of `pkg/broker/message.go`.  A message is stored as
`[priority:1][timestamp:8][produceTime:8][appendTime:8][keyLen:4][key][value]`.
Both marshalling routines write into a buffer that may hold stale bytes; the
layout theorem shows that no stale byte survives, and the round-trip theorems
follow from the layout alone.
-/

set_option autoImplicit false

namespace NyaQueue

open BigEndian Slice

abbrev Bytes := List UInt8

def priorityFieldSize : Nat := 1
def timestampFieldSize : Nat := 8
def keyLenFieldSize : Nat := 4

def priorityOffset : Nat := 0
def timestampOff : Nat := priorityFieldSize
def produceTimeOff : Nat := timestampOff + timestampFieldSize
def appendTimeOff : Nat := produceTimeOff + timestampFieldSize
def keyLenOff : Nat := appendTimeOff + timestampFieldSize
def keyOff : Nat := keyLenOff + keyLenFieldSize

/-- The fixed-width part before the key length: priority and three times. -/
def headerSize : Nat := keyLenOff

/-- All fixed fields, the key length included. -/
def metadataSize : Nat := keyOff

structure MessageHeader where
  priority : UInt8
  timestamp : Int64
  produceTime : Int64
  appendTime : Int64
  deriving DecidableEq, Repr

structure Message where
  header : MessageHeader
  key : Bytes
  value : Bytes
  batchDecoded : Bool := false
  deriving DecidableEq, Repr

inductive MessageError where
  /-- message data too short: got %d bytes, need at least 29 -/
  | tooShort (got : Nat)
  /-- message truncated: got %d bytes, need %d (keyLen=%d) -/
  | truncated (got need keyLen : Nat)
  /-- data too short for header: got %d bytes, need at least 25 -/
  | headerTooShort (got : Nat)
  deriving DecidableEq, Repr

namespace Message

def encodedSize (m : Message) : Nat := metadataSize + m.key.length + m.value.length

/-- The writes of `marshalInto`, in source order, over whatever `buf` holds. -/
def marshalInto (m : Message) (buf : Bytes) : Bytes :=
  let kl := m.key.length
  let buf := overwrite buf priorityOffset [m.header.priority]
  let buf := overwrite buf timestampOff (putUint64 m.header.timestamp.toUInt64)
  let buf := overwrite buf produceTimeOff (putUint64 m.header.produceTime.toUInt64)
  let buf := overwrite buf appendTimeOff (putUint64 m.header.appendTime.toUInt64)
  let buf := overwrite buf keyLenOff (putUint32 (UInt32.ofNat kl))
  let buf := overwrite buf keyOff m.key
  overwrite buf (keyOff + kl) m.value

def marshal (m : Message) : Bytes := m.marshalInto (List.replicate m.encodedSize 0)

/-- `pooled` is the backing array of the buffer taken from the pool, with
whatever an earlier message left in it. -/
def marshalPooled (m : Message) (pooled : Bytes) : Bytes :=
  let needed := m.encodedSize
  if pooled.length < needed then m.marshalInto (List.replicate needed 0)
  else m.marshalInto (pooled.take needed)

/-- The wire layout as a concatenation of fields. -/
def layout (m : Message) : Bytes :=
  m.header.priority :: (putUint64 m.header.timestamp.toUInt64 ++
    (putUint64 m.header.produceTime.toUInt64 ++ (putUint64 m.header.appendTime.toUInt64 ++
      (putUint32 (UInt32.ofNat m.key.length) ++ (m.key ++ m.value)))))

variable (m : Message)

theorem layout_length : m.layout.length = m.encodedSize := by
  simp only [layout, List.length_cons, List.length_append, putUint64_length, putUint32_length,
    encodedSize, metadataSize, keyOff, keyLenOff, appendTimeOff, produceTimeOff, timestampOff,
    priorityFieldSize, timestampFieldSize, keyLenFieldSize]
  omega

theorem metadataSize_le_layout : metadataSize ≤ m.layout.length := by
  rw [layout_length, encodedSize]
  omega

theorem marshalInto_eq_layout (buf : Bytes) (size : buf.length = m.encodedSize) :
    m.marshalInto buf = m.layout := by
  have size' : buf.length = 29 + m.key.length + m.value.length := size
  unfold marshalInto layout
  simp only [priorityOffset, timestampOff, produceTimeOff, appendTimeOff, keyLenOff, keyOff,
    priorityFieldSize, timestampFieldSize, keyLenFieldSize]
  have first := overwrite_written [] buf [m.header.priority] 0 rfl (by simp; omega)
  rw [List.nil_append] at first
  rw [first]
  -- from here on each write starts where the written part ends
  rw [overwrite_written _ _ _ _ (by simp) (by simp; omega)]
  rw [overwrite_written _ _ _ _ (by simp) (by simp; omega)]
  rw [overwrite_written _ _ _ _ (by simp) (by simp; omega)]
  rw [overwrite_written _ _ _ _ (by simp) (by simp; omega)]
  rw [overwrite_written _ _ _ _ (by simp) (by simp; omega)]
  rw [overwrite_written _ _ _ _ (by simp; omega) (by simp; omega)]
  have rest : ((((((buf.drop 1).drop 8).drop 8).drop 8).drop 4).drop m.key.length).drop
      m.value.length = [] := by
    apply List.drop_eq_nil_of_le
    simp only [List.length_drop]
    omega
  simp only [putUint64_length, putUint32_length, List.length_singleton, rest]
  simp

theorem marshal_eq_layout : m.marshal = m.layout :=
  m.marshalInto_eq_layout _ List.length_replicate

theorem marshalPooled_eq_layout (pooled : Bytes) :
    m.marshalPooled pooled = m.layout := by
  unfold marshalPooled
  by_cases small : pooled.length < m.encodedSize
  · simp only [small, if_true]
    exact m.marshalInto_eq_layout _ List.length_replicate
  · simp only [small, if_false]
    apply m.marshalInto_eq_layout
    rw [List.length_take]
    omega

end Message

/-! ## Reading a message back -/

def unmarshalMessage (data : Bytes) : Except MessageError Message :=
  if data.length < metadataSize then .error (.tooShort data.length)
  else
    let kl := (uint32 (data.drop keyLenOff)).toNat
    if data.length < metadataSize + kl then
      .error (.truncated data.length (metadataSize + kl) kl)
    else
      .ok {
        header := {
          priority := data.getD priorityOffset 0
          timestamp := (uint64 (data.drop timestampOff)).toInt64
          produceTime := (uint64 (data.drop produceTimeOff)).toInt64
          appendTime := (uint64 (data.drop appendTimeOff)).toInt64 }
        key := (data.drop keyOff).take kl
        value := data.drop (keyOff + kl) }

def unmarshalHeader (data : Bytes) : Except MessageError MessageHeader :=
  if data.length < headerSize then .error (.headerTooShort data.length)
  else
    .ok {
      priority := data.getD priorityOffset 0
      timestamp := (uint64 (data.drop timestampOff)).toInt64
      produceTime := (uint64 (data.drop produceTimeOff)).toInt64
      appendTime := (uint64 (data.drop appendTimeOff)).toInt64 }

namespace Message

variable (m : Message)

theorem layout_head : m.layout.getD priorityOffset 0 = m.header.priority := rfl

theorem layout_timestamp :
    uint64 (m.layout.drop timestampOff) = m.header.timestamp.toUInt64 :=
  uint64_put _ _

theorem layout_drop_produceTime : m.layout.drop produceTimeOff =
    putUint64 m.header.produceTime.toUInt64 ++ (putUint64 m.header.appendTime.toUInt64 ++
      (putUint32 (UInt32.ofNat m.key.length) ++ (m.key ++ m.value))) :=
  List.drop_left' (putUint64_length _)

theorem layout_drop_appendTime : m.layout.drop appendTimeOff =
    putUint64 m.header.appendTime.toUInt64 ++
      (putUint32 (UInt32.ofNat m.key.length) ++ (m.key ++ m.value)) := by
  have split : appendTimeOff = produceTimeOff + timestampFieldSize := rfl
  rw [split, ← List.drop_drop, layout_drop_produceTime]
  exact List.drop_left' (putUint64_length _)

theorem layout_drop_keyLen : m.layout.drop keyLenOff =
    putUint32 (UInt32.ofNat m.key.length) ++ (m.key ++ m.value) := by
  have split : keyLenOff = appendTimeOff + timestampFieldSize := rfl
  rw [split, ← List.drop_drop, layout_drop_appendTime]
  exact List.drop_left' (putUint64_length _)

theorem layout_drop_key : m.layout.drop keyOff = m.key ++ m.value := by
  have split : keyOff = keyLenOff + keyLenFieldSize := rfl
  rw [split, ← List.drop_drop, layout_drop_keyLen]
  exact List.drop_left' (putUint32_length _)

theorem unmarshalHeader_layout : unmarshalHeader m.layout = .ok m.header := by
  have enough : ¬ m.layout.length < headerSize := by
    have := m.metadataSize_le_layout
    simp only [metadataSize, keyOff, headerSize] at *
    omega
  rw [unmarshalHeader, if_neg enough, layout_head, layout_timestamp, layout_drop_produceTime,
    layout_drop_appendTime, uint64_put, uint64_put]
  simp only [Int64.toInt64_toUInt64]

theorem unmarshalMessage_layout (short : m.key.length < 2 ^ 32) :
    unmarshalMessage m.layout = .ok { m with batchDecoded := false } := by
  have enough : ¬ m.layout.length < metadataSize := Nat.not_lt.mpr m.metadataSize_le_layout
  have keyLen : (uint32 (m.layout.drop keyLenOff)).toNat = m.key.length := by
    rw [layout_drop_keyLen, uint32_put, UInt32.toNat_ofNat', Nat.mod_eq_of_lt short]
  have whole : ¬ m.layout.length < metadataSize + m.key.length := by
    rw [layout_length, encodedSize]
    omega
  have value : m.layout.drop (keyOff + m.key.length) = m.value := by
    rw [← List.drop_drop, layout_drop_key, List.drop_left]
  rw [unmarshalMessage, if_neg enough]
  simp only [keyLen, if_neg whole, value]
  rw [layout_head, layout_timestamp, layout_drop_produceTime, layout_drop_appendTime,
    uint64_put, uint64_put, layout_drop_key, List.take_left]
  simp only [Int64.toInt64_toUInt64]

end Message

end NyaQueue
