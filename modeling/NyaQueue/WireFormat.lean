import NyaQueue.Message

/-!
# The wire format is a bijection

What `UnmarshalMessage` accepts is exactly what `Marshal` produces: a byte
string is accepted when it holds the fixed fields and as many bytes more as its
key length says, and marshalling the result gives the string back.
-/

set_option autoImplicit false

namespace NyaQueue

open BigEndian

/-- The key length stored in a byte string. -/
def storedKeyLen (data : Bytes) : Nat := (uint32 (data.drop keyLenOff)).toNat

/-- At least the fixed fields and the key that the key length announces. -/
def WellFramed (data : Bytes) : Prop :=
  metadataSize ≤ data.length ∧ metadataSize + storedKeyLen data ≤ data.length

/-- The fields at their offsets. -/
def messageAt (data : Bytes) : Message where
  header := {
    priority := data.getD priorityOffset 0
    timestamp := (uint64 (data.drop timestampOff)).toInt64
    produceTime := (uint64 (data.drop produceTimeOff)).toInt64
    appendTime := (uint64 (data.drop appendTimeOff)).toInt64 }
  key := (data.drop keyOff).take (storedKeyLen data)
  value := data.drop (keyOff + storedKeyLen data)

variable {data : Bytes}

theorem unmarshalMessage_of_framed (framed : WellFramed data) :
    unmarshalMessage data = .ok (messageAt data) := by
  have fixed : ¬ data.length < metadataSize := Nat.not_lt.mpr framed.1
  have whole : ¬ data.length < metadataSize + (uint32 (data.drop keyLenOff)).toNat :=
    Nat.not_lt.mpr framed.2
  simp only [unmarshalMessage, if_neg fixed, if_neg whole]
  rfl

theorem framed_of_unmarshalMessage {m : Message} (accepted : unmarshalMessage data = .ok m) :
    WellFramed data := by
  unfold unmarshalMessage at accepted
  by_cases fixed : data.length < metadataSize
  · rw [if_pos fixed] at accepted
    cases accepted
  · rw [if_neg fixed] at accepted
    by_cases whole : data.length < metadataSize + (uint32 (data.drop keyLenOff)).toNat
    · simp only [if_pos whole] at accepted
      cases accepted
    · exact ⟨Nat.not_lt.mp fixed, Nat.not_lt.mp whole⟩

theorem take_append_drop_add {α : Type} (data : List α) (off size : Nat) :
    (data.drop off).take size ++ data.drop (off + size) = data.drop off := by
  rw [← List.drop_drop, List.take_append_drop]

theorem messageAt_layout (framed : WellFramed data) :
    (messageAt data).layout = data := by
  have enough : 29 ≤ data.length := framed.1
  have keyLen : UInt32.ofNat (messageAt data).key.length = uint32 (data.drop keyLenOff) := by
    have size : (messageAt data).key.length = storedKeyLen data := by
      have room : storedKeyLen data ≤ (data.drop keyOff).length := by
        have := framed.2
        simp only [metadataSize] at this
        rw [List.length_drop]
        omega
      exact List.length_take_of_le room
    rw [size, storedKeyLen, UInt32.ofNat_toNat]
  have field : ∀ off, off + 8 ≤ 29 →
      putUint64 (uint64 (data.drop off)).toInt64.toUInt64 = (data.drop off).take 8 := by
    intro off inside
    exact put_uint64 (by rw [List.length_drop]; omega)
  have body : (messageAt data).key ++ (messageAt data).value = data.drop keyOff :=
    take_append_drop_add data keyOff (storedKeyLen data)
  have length : putUint32 (uint32 (data.drop keyLenOff)) = (data.drop keyLenOff).take 4 :=
    put_uint32 (by simp only [List.length_drop, keyLenOff, appendTimeOff, produceTimeOff,
      timestampOff, priorityFieldSize, timestampFieldSize]; omega)
  rw [Message.layout, keyLen, body, length]
  simp only [messageAt, field timestampOff (by decide), field produceTimeOff (by decide),
    field appendTimeOff (by decide)]
  have keyLenJoined : (data.drop keyLenOff).take 4 ++ data.drop keyOff = data.drop keyLenOff :=
    take_append_drop_add data keyLenOff 4
  have appendJoined : (data.drop appendTimeOff).take 8 ++ data.drop keyLenOff =
      data.drop appendTimeOff := take_append_drop_add data appendTimeOff 8
  have produceJoined : (data.drop produceTimeOff).take 8 ++ data.drop appendTimeOff =
      data.drop produceTimeOff := take_append_drop_add data produceTimeOff 8
  have timestampJoined : (data.drop timestampOff).take 8 ++ data.drop produceTimeOff =
      data.drop timestampOff := take_append_drop_add data timestampOff 8
  rw [keyLenJoined, appendJoined, produceJoined, timestampJoined]
  cases data with
  | nil => simp at enough
  | cons first rest => rfl

theorem unmarshalHeader_of_framed (framed : WellFramed data) :
    unmarshalHeader data = .ok (messageAt data).header := by
  have enough : ¬ data.length < headerSize := by
    have := framed.1
    simp only [metadataSize, keyOff, headerSize] at *
    omega
  rw [unmarshalHeader, if_neg enough]
  rfl

/-- Decoding inverts marshalling, marshalling inverts decoding on exactly the
well framed strings, the header reader agrees with the message reader, and the
contents of a recycled buffer do not matter. -/
theorem wire_format_bijection :
    (∀ m : Message, m.key.length < 2 ^ 32 → ∃ m', unmarshalMessage m.marshal = .ok m' ∧
      m'.header = m.header ∧ m'.key = m.key ∧ m'.value = m.value) ∧
    (∀ data : Bytes, (∃ m, unmarshalMessage data = .ok m) ↔
      29 ≤ data.length ∧ 29 + (uint32 (data.drop 25)).toNat ≤ data.length) ∧
    (∀ (data : Bytes) (m : Message), unmarshalMessage data = .ok m →
      m.marshal = data ∧ unmarshalHeader data = .ok m.header) ∧
    ∀ (m : Message) (pooled : Bytes), m.marshalPooled pooled = m.marshal := by
  refine ⟨?_, ?_, ?_, ?_⟩
  · intro m short
    rw [Message.marshal_eq_layout]
    exact ⟨_, m.unmarshalMessage_layout short, rfl, rfl, rfl⟩
  · intro data
    constructor
    · rintro ⟨m, accepted⟩
      exact framed_of_unmarshalMessage accepted
    · intro framed
      exact ⟨_, unmarshalMessage_of_framed framed⟩
  · intro data m accepted
    have framed := framed_of_unmarshalMessage accepted
    rw [unmarshalMessage_of_framed framed] at accepted
    cases accepted
    rw [Message.marshal_eq_layout]
    exact ⟨messageAt_layout framed, unmarshalHeader_of_framed framed⟩
  · intro m pooled
    rw [Message.marshalPooled_eq_layout, Message.marshal_eq_layout]

end NyaQueue
