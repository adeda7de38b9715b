import NyaQueue.Appends

/-!
# Reading back what was appended

`Read` decides how to decode a record by its first byte.  For a record of a
compressed batch that byte is a tag; for a plain message it is the priority,
which nothing keeps away from the two tag values.  The first half of this file
says what a read depends on; the second settles read-back for plain and for
compressed appends.
-/

set_option autoImplicit false

namespace NyaQueue

open BigEndian

/-- The offset a record points to when `Read` takes it for a redirect. -/
def redirectTarget (data : Bytes) : Option Nat :=
  if data.head? = some walRedirectMagic ∧ 13 ≤ data.length then
    some (uint64 (data.drop 1)).toNat
  else none

namespace Partition

/-! ## What a read depends on -/

variable {p q : Partition} {base offset : Nat} {m : Message}

theorem readFromBatchData_congr (codec : q.batchCodec = p.batchCodec) (data : Bytes) (index : Nat) :
    q.readFromBatchData data index = p.readFromBatchData data index := by
  unfold readFromBatchData
  rw [codec]

theorem readFromBatch_congr (codec : q.batchCodec = p.batchCodec)
    (record : q.log.recordAt base = p.log.recordAt base) (index : Nat) :
    q.readFromBatch base index = p.readFromBatch base index := by
  unfold readFromBatch
  rw [Log.read_eq_recordAt, Log.read_eq_recordAt, record]
  cases p.log.recordAt base with
  | none => rfl
  | some data => exact readFromBatchData_congr codec data index

theorem read_of_missing (missing : p.log.recordAt offset = none) :
    p.read offset = .error (.walRead offset .notFound) := by
  rw [read, Log.read_eq_recordAt, missing]

theorem read_bounds (read : p.read offset = .ok m) :
    p.log.firstIndex ≤ offset ∧ offset < p.log.nextIndex := by
  cases stored : p.log.recordAt offset with
  | none =>
    rw [read_of_missing stored] at read
    cases read
  | some data => exact Log.recordAt_bounds stored

theorem read_of_redirect {data : Bytes} (stored : p.log.recordAt offset = some data)
    (target : redirectTarget data = some base) :
    p.read offset = p.readFromBatch base (uint32 (data.drop 9)).toNat := by
  unfold redirectTarget at target
  split at target
  · rename_i shape
    cases target
    cases data with
    | nil => simp at shape
    | cons tag body =>
      have tagged : tag = walRedirectMagic := by simpa using shape.1
      have long : ¬ (tag :: body).length < 13 := Nat.not_lt.mpr shape.2
      rw [read, Log.read_eq_recordAt, stored]
      simp only [tagged, if_true] at long ⊢
      rw [if_neg long]
  · cases target

theorem read_congr (codec : q.batchCodec = p.batchCodec)
    (record : q.log.recordAt offset = p.log.recordAt offset)
    (target : ∀ data base, p.log.recordAt offset = some data → redirectTarget data = some base →
      q.log.recordAt base = p.log.recordAt base) :
    q.read offset = p.read offset := by
  cases stored : p.log.recordAt offset with
  | none => rw [read_of_missing stored, read_of_missing (record.trans stored)]
  | some data =>
    cases pointed : redirectTarget data with
    | some base =>
      rw [read_of_redirect stored pointed, read_of_redirect (record.trans stored) pointed]
      exact readFromBatch_congr codec (target data base stored pointed) _
    | none =>
      unfold read
      rw [Log.read_eq_recordAt, Log.read_eq_recordAt, record, stored]
      cases data with
      | nil => rfl
      | cons tag body =>
        by_cases tagged : tag = walRedirectMagic
        · have short : (tag :: body).length < 13 := by
            by_contra long
            simp [redirectTarget, tagged] at pointed
            simp at long
            omega
          simp only [tagged, if_true] at short ⊢
          rw [if_pos short, if_pos short]
        · simp only [tagged, if_false]
          rw [readFromBatchData_congr codec]

theorem read_of_extends (grown : p.Extends q) (before : p.read offset = .ok m) :
    q.read offset = .ok m := by
  cases stored : p.log.recordAt offset with
  | none =>
    rw [read_of_missing stored] at before
    cases before
  | some data =>
    rw [← before]
    apply read_congr grown.codec
    · rw [grown.records offset data stored, stored]
    · intro data' base stored' pointed
      rw [read_of_redirect stored' pointed] at before
      cases leader : p.log.recordAt base with
      | none =>
        rw [readFromBatch, Log.read_eq_recordAt, leader] at before
        cases before
      | some data'' => exact grown.records base data'' leader

/-! ## Batch reads always carry the batch mark -/

theorem walkPayload_cases {motive : Except ReadError Message → Prop}
    (corrupt : ∀ i, motive (.error (.corruptPayload i)))
    (truncated : ∀ i, motive (.error (.messageTruncated i)))
    (undecodable : ∀ i cause, motive (.error (.unmarshalInBatch i cause)))
    (decoded : ∀ msg : Message, motive (.ok { msg with batchDecoded := true }))
    (payload : Bytes) (ahead : Nat) : ∀ i off, motive (walkPayload payload ahead i off) := by
  induction ahead with
  | zero =>
    intro i off
    by_cases inside : off + 4 ≤ payload.length
    · rw [walkPayload_last inside]
      split
      · exact truncated i
      · cases unmarshalMessage ((payload.drop (off + 4)).take
          (uint32 (payload.drop off)).toNat) with
        | error cause => exact undecodable i cause
        | ok msg => exact decoded msg
    · rw [walkPayload_short (Nat.lt_of_not_le inside)]
      exact corrupt i
  | succ ahead ih =>
    intro i off
    by_cases inside : off + 4 ≤ payload.length
    · rw [walkPayload_next inside]
      exact ih _ _
    · rw [walkPayload_short (Nat.lt_of_not_le inside)]
      exact corrupt i

theorem readFromBatchData_cases {motive : Except ReadError Message → Prop}
    (other : motive (.error .notBatchRecord))
    (outside : ∀ index count, motive (.error (.batchIndexOutOfRange index count)))
    (undecodable : ∀ cause, motive (.error (.decompressBatch cause)))
    (walked : ∀ payload index, motive (walkPayload payload index 0 0))
    (p : Partition) (data : Bytes) (index : Nat) : motive (p.readFromBatchData data index) := by
  unfold readFromBatchData
  split
  · exact other
  · dsimp only
    split
    · exact outside _ _
    · cases p.batchCodec with
      | none => exact walked _ _
      | some codec =>
        dsimp only
        cases codec.decode (data.drop 5) with
        | error cause => exact undecodable cause
        | ok payload => exact walked _ _

theorem readFromBatchData_batchDecoded {data : Bytes} {index : Nat}
    (result : p.readFromBatchData data index = .ok m) : m.batchDecoded = true := by
  have marked : ∀ m, p.readFromBatchData data index = .ok m → m.batchDecoded = true := by
    refine readFromBatchData_cases
      (motive := fun answer => ∀ m, answer = .ok m → m.batchDecoded = true)
      (by simp) (by simp) (by simp) (fun payload index => ?_) p data index
    exact walkPayload_cases
      (motive := fun answer => ∀ m, answer = .ok m → m.batchDecoded = true)
      (by simp) (by simp) (by simp) (by rintro msg m ⟨⟩; rfl) payload index 0 0
  exact marked m result

theorem readFromBatch_batchDecoded {index : Nat} (result : p.readFromBatch base index = .ok m) :
    m.batchDecoded = true := by
  unfold readFromBatch at result
  split at result
  · cases result
  · exact readFromBatchData_batchDecoded result

theorem readFromBatchData_ne_walReadBatch (p : Partition) (data : Bytes) (index : Nat)
    (base : Nat) (cause : WalError) :
    p.readFromBatchData data index ≠ .error (.walReadBatch base cause) := by
  refine readFromBatchData_cases (motive := fun answer => answer ≠ .error (.walReadBatch base cause))
    (by simp) (by simp) (by simp) (fun payload index => ?_) p data index
  exact walkPayload_cases (motive := fun answer => answer ≠ .error (.walReadBatch base cause))
    (by simp) (by simp) (by simp) (by simp) payload index 0 0

end Partition

/-! ## Plain appends -/

/-- Neither tag value; the priorities a plain record can carry safely. -/
def PlainPriority (m : Message) : Prop :=
  m.header.priority ≠ walBatchMagic ∧ m.header.priority ≠ walRedirectMagic

instance plainPriorityDecidable (m : Message) : Decidable (PlainPriority m) :=
  inferInstanceAs (Decidable (_ ∧ _))

namespace Partition

theorem read_of_plain {p : Partition} {offset : Nat} {m : Message}
    (stored : p.log.recordAt offset = some m.layout) (plain : PlainPriority m)
    (short : m.key.length < 2 ^ 32) :
    p.read offset = .ok { m with batchDecoded := false } := by
  have decoded := m.unmarshalMessage_layout short
  rw [read, Log.read_eq_recordAt, stored]
  unfold Message.layout at decoded ⊢
  simp only [plain.1, plain.2, if_false]
  rw [decoded]

theorem read_of_tagged {p : Partition} {offset : Nat} {m m' : Message}
    (stored : p.log.recordAt offset = some m.layout) (tagged : ¬ PlainPriority m)
    (result : p.read offset = .ok m') : m'.batchDecoded = true := by
  by_cases redirect : m.header.priority = walRedirectMagic
  · have pointed : redirectTarget m.layout = some (uint64 (m.layout.drop 1)).toNat := by
      have long := m.metadataSize_le_layout
      have wide : 13 ≤ m.layout.length := Nat.le_trans (by decide) long
      rw [redirectTarget, if_pos]
      exact ⟨by simp [Message.layout, redirect], wide⟩
    rw [read_of_redirect stored pointed] at result
    exact readFromBatch_batchDecoded result
  · have leader : m.header.priority = walBatchMagic := by
      by_contra other
      exact tagged ⟨other, redirect⟩
    rw [read, Log.read_eq_recordAt, stored] at result
    unfold Message.layout at result
    simp only [leader, if_true] at result
    rw [if_neg (by decide)] at result
    exact readFromBatchData_batchDecoded result

/-- What read-back asks of a plain append: each message comes back under its
offset, and older offsets read as before. -/
def ReadsBack (p q : Partition) (msgs : List Message) (offsets : List Nat) (env : AppendEnv) :
    Prop :=
  (∀ (i : Nat) (m : Message), msgs[i]? = some m → ∃ offset, offsets[i]? = some offset ∧
    q.read offset = .ok { m.stamp env.appendTime with batchDecoded := false }) ∧
  ∀ offset, offset < p.nextOffset → q.read offset = p.read offset

/-- No stored record is taken for a redirect into the offsets
`p.nextOffset, …, p.nextOffset + count - 1`. -/
def NoRedirectAhead (p : Partition) (count : Nat) : Prop :=
  ∀ offset data base, p.log.recordAt offset = some data → redirectTarget data = some base →
    ¬ (p.nextOffset ≤ base ∧ base < p.nextOffset + count)

section PlainAppend

variable {p q : Partition} {msgs : List Message} {env : AppendEnv} {offsets : List Nat}

theorem appendBatch_records (nonempty : msgs ≠ [])
    (success : p.appendBatch msgs env = (.ok offsets, q)) :
    offsets = List.range' p.nextOffset msgs.length ∧ q.batchCodec = p.batchCodec ∧
      p.nextOffset = p.log.nextIndex ∧
      (∀ offset, offset < p.nextOffset → q.log.recordAt offset = p.log.recordAt offset) ∧
      (∀ (i : Nat) (m : Message), msgs[i]? = some m →
        q.log.recordAt (p.nextOffset + i) = some (m.stamp env.appendTime).layout) ∧
      ∀ offset, p.nextOffset + msgs.length ≤ offset → q.log.recordAt offset = none := by
  rcases p.appendBatch_cases nonempty env with ⟨cause, -, result⟩ | ⟨log, written, result⟩
  · rw [result] at success
    cases success
  · rw [result] at success
    cases success
    have next := nextOffset_of_written written (assemble_offsets env msgs 0 p.nextOffset)
      (List.length_pos_of_ne_nil nonempty)
    refine ⟨rfl, rfl, next, ?_, ?_, ?_⟩
    · intro offset old
      exact Log.recordAt_writeBatch_old written (next ▸ old)
    · intro i m at_i
      have record := Log.recordAt_writeBatch_new written i
      rw [assemble_records, List.getElem?_map, at_i] at record
      rw [next]
      exact record
    · intro offset beyond
      obtain ⟨i, rfl⟩ := Nat.exists_eq_add_of_le (Nat.le_trans (Nat.le_add_right _ _) beyond)
      have record := Log.recordAt_writeBatch_new written i
      rw [assemble_records, List.getElem?_eq_none (by simp; omega)] at record
      rw [next]
      exact record

theorem read_of_appendBatch (success : p.appendBatch msgs env = (.ok offsets, q))
    {i : Nat} {m : Message} (at_i : msgs[i]? = some m) (plain : PlainPriority m)
    (short : m.key.length < 2 ^ 32) :
    ∃ offset, offsets[i]? = some offset ∧
      q.read offset = .ok { m.stamp env.appendTime with batchDecoded := false } := by
  have nonempty : msgs ≠ [] := List.ne_nil_of_mem (List.mem_of_getElem? at_i)
  obtain ⟨offsetsEq, -, -, -, new, -⟩ := appendBatch_records nonempty success
  obtain ⟨inside, -⟩ := List.getElem?_eq_some_iff.mp at_i
  refine ⟨p.nextOffset + i, ?_, read_of_plain (new i m at_i) plain short⟩
  rw [offsetsEq, List.getElem?_range' inside, Nat.one_mul]

theorem readsBack_plain (nonempty : msgs ≠ []) (short : ∀ m ∈ msgs, m.key.length < 2 ^ 32)
    (success : p.appendBatch msgs env = (.ok offsets, q))
    (plain : ∀ m ∈ msgs, PlainPriority m) (ahead : p.NoRedirectAhead msgs.length) :
    p.ReadsBack q msgs offsets env := by
  obtain ⟨-, codec, next, old, -, beyond⟩ := appendBatch_records nonempty success
  constructor
  · intro i m at_i
    have member := List.mem_of_getElem? at_i
    exact read_of_appendBatch success at_i (plain m member) (short m member)
  · intro offset before
    apply read_congr codec (old offset before)
    intro data base stored pointed
    by_cases earlier : base < p.nextOffset
    · exact old base earlier
    · have later : p.nextOffset + msgs.length ≤ base := by
        by_contra within
        exact ahead offset data base stored pointed ⟨by omega, by omega⟩
      rw [beyond base later]
      cases missing : p.log.recordAt base with
      | none => rfl
      | some data' =>
        have := (Log.recordAt_bounds missing).2
        omega

theorem plain_of_readsBack (nonempty : msgs ≠ [])
    (success : p.appendBatch msgs env = (.ok offsets, q))
    (back : p.ReadsBack q msgs offsets env) (m : Message) (member : m ∈ msgs) :
    PlainPriority m := by
  obtain ⟨offsetsEq, -, -, -, new, -⟩ := appendBatch_records nonempty success
  obtain ⟨i, inside, rfl⟩ := List.mem_iff_getElem.mp member
  have at_i : msgs[i]? = some msgs[i] := List.getElem?_eq_getElem inside
  obtain ⟨offset, at_offset, result⟩ := back.1 i msgs[i] at_i
  rw [offsetsEq, List.getElem?_range' inside, Nat.one_mul] at at_offset
  cases at_offset
  by_contra tagged
  have marked := read_of_tagged (new i _ at_i) tagged result
  exact Bool.false_ne_true marked

theorem noRedirectAhead_of_readsBack (nonempty : msgs ≠ [])
    (success : p.appendBatch msgs env = (.ok offsets, q))
    (back : p.ReadsBack q msgs offsets env) : p.NoRedirectAhead msgs.length := by
  obtain ⟨-, codec, next, old, new, -⟩ := appendBatch_records nonempty success
  rintro offset data base stored pointed ⟨low, high⟩
  have before : offset < p.nextOffset := by
    have := (Log.recordAt_bounds stored).2
    omega
  obtain ⟨i, rfl⟩ := Nat.exists_eq_add_of_le low
  have inside : i < msgs.length := by omega
  -- before the append the target does not exist; afterwards it does
  have missing : p.log.recordAt (p.nextOffset + i) = none := by
    cases found : p.log.recordAt (p.nextOffset + i) with
    | none => rfl
    | some data' =>
      have := (Log.recordAt_bounds found).2
      omega
  have unchanged := back.2 offset before
  rw [read_of_redirect stored pointed,
    read_of_redirect ((old offset before).trans stored) pointed, readFromBatch, readFromBatch,
    Log.read_eq_recordAt, Log.read_eq_recordAt, missing,
    new i _ (List.getElem?_eq_getElem inside)] at unchanged
  exact readFromBatchData_ne_walReadBatch _ _ _ _ _ unchanged

/-- A successful plain append reads back exactly when none of its priorities is
a tag value and no stored record already redirects to one of its offsets. -/
theorem appendBatch_readsBack_iff (nonempty : msgs ≠ [])
    (short : ∀ m ∈ msgs, m.key.length < 2 ^ 32)
    (success : p.appendBatch msgs env = (.ok offsets, q)) :
    p.ReadsBack q msgs offsets env ↔
      (∀ m ∈ msgs, PlainPriority m) ∧ p.NoRedirectAhead msgs.length := by
  constructor
  · intro back
    exact ⟨plain_of_readsBack nonempty success back,
      noRedirectAhead_of_readsBack nonempty success back⟩
  · rintro ⟨plain, ahead⟩
    exact readsBack_plain nonempty short success plain ahead

end PlainAppend

end Partition

/-- A healthy disk, clocks at the given instant and an empty pool. -/
def steadyEnv (now : Int64) : AppendEnv where
  appendTime := now
  indexTime := now.toInt
  pooled := fun _ => []
  disk := true

def sampleMessage (priority : UInt8) (timestamp : Int64) (value : UInt8) : Message where
  header := { priority := priority, timestamp := timestamp, produceTime := 0, appendTime := 0 }
  key := [107]
  value := [value]

namespace Partition

/-- A fresh partition in FIFO mode. -/
def freshFifo : Partition := Partition.new 0 Log.empty .fifo

theorem appendBatch_readsBack_iff_sample :
    freshFifo.ReadsBack (freshFifo.appendBatch [sampleMessage 5 7 118] (steadyEnv 9)).2
        [sampleMessage 5 7 118] [1] (steadyEnv 9) ↔
      (∀ m ∈ [sampleMessage 5 7 118], PlainPriority m) ∧ freshFifo.NoRedirectAhead 1 :=
  appendBatch_readsBack_iff (by decide) (by decide) (Prod.ext (by decide) rfl)

/-- A message of priority 255 is stored, acknowledged at offset 1, and read as
a redirect to its own timestamp. -/
theorem appendBatch_priority255_unreadable :
    (freshFifo.appendBatch [sampleMessage 255 7 118] (steadyEnv 9)).1 = .ok [1] ∧
    (freshFifo.appendBatch [sampleMessage 255 7 118] (steadyEnv 9)).2.read 1 =
      .error (.walReadBatch 7 .notFound) ∧
    ¬ freshFifo.ReadsBack (freshFifo.appendBatch [sampleMessage 255 7 118] (steadyEnv 9)).2
        [sampleMessage 255 7 118] [1] (steadyEnv 9) := by
  have lost : (freshFifo.appendBatch [sampleMessage 255 7 118] (steadyEnv 9)).2.read 1 =
      .error (.walReadBatch 7 .notFound) := by decide
  refine ⟨by decide, lost, ?_⟩
  intro back
  obtain ⟨offset, at_offset, result⟩ := back.1 0 (sampleMessage 255 7 118) rfl
  cases at_offset
  rw [lost] at result
  cases result

end Partition

/-! ## Compressed appends -/

theorem walkPayload_frames (msgs : List Message)
    (sizes : ∀ m ∈ msgs, m.encodedSize < 2 ^ 32) :
    ∀ (before : Bytes) (ahead i off : Nat) (m : Message), off = before.length →
      msgs[ahead]? = some m →
      walkPayload (before ++ frames msgs) ahead i off = .ok { m with batchDecoded := true } := by
  induction msgs with
  | nil => intro before ahead i off m _ at_ahead; simp at at_ahead
  | cons first rest ih =>
    intro before ahead i off m position at_ahead
    subst position
    have size := sizes first List.mem_cons_self
    rw [← first.layout_length] at size
    have short : first.key.length < 2 ^ 32 := by
      rw [first.layout_length, Message.encodedSize] at size
      omega
    have payload : before ++ frames (first :: rest) =
        before ++ (putUint32 (UInt32.ofNat first.layout.length) ++
          (first.layout ++ frames rest)) := by
      rw [frames_cons]
    have enough : ¬ (before ++ frames (first :: rest)).length < before.length + 4 := by
      rw [payload]
      simp only [List.length_append, putUint32_length]
      omega
    have prefixLen : (uint32 ((before ++ frames (first :: rest)).drop before.length)).toNat =
        first.layout.length := by
      rw [payload, List.drop_left, uint32_put, UInt32.toNat_ofNat', Nat.mod_eq_of_lt size]
    rw [walkPayload, if_neg enough]
    simp only [prefixLen]
    cases ahead with
    | zero =>
      cases at_ahead
      have whole : ¬ (before ++ frames (first :: rest)).length <
          before.length + 4 + first.layout.length := by
        rw [payload]
        simp only [List.length_append, putUint32_length]
        omega
      have body : ((before ++ frames (first :: rest)).drop (before.length + 4)).take
          first.layout.length = first.layout := by
        rw [payload, ← List.drop_drop, List.drop_left,
          List.drop_left' (putUint32_length _), List.take_left]
      dsimp only
      rw [if_neg whole, body, first.unmarshalMessage_layout short]
    | succ ahead =>
      have shifted : before ++ frames (first :: rest) =
          (before ++ putUint32 (UInt32.ofNat first.layout.length) ++ first.layout) ++
            frames rest := by
        rw [payload]
        simp only [List.append_assoc]
      dsimp only
      rw [shifted]
      apply ih (fun m member => sizes m (List.mem_cons_of_mem _ member))
      · simp only [List.length_append, putUint32_length]
      · simpa using at_ahead

namespace Partition

theorem readFromBatchData_leader {p : Partition} {codec : Codec} {msgs : List Message}
    {compressed : Bytes} (installed : p.batchCodec = some codec)
    (decoded : codec.decode compressed = .ok (frames msgs)) (count : msgs.length < 2 ^ 32)
    (sizes : ∀ m ∈ msgs, m.encodedSize < 2 ^ 32) {index : Nat} {m : Message}
    (at_index : msgs[index]? = some m) :
    p.readFromBatchData (leaderRecord msgs.length compressed) index =
      .ok { m with batchDecoded := true } := by
  obtain ⟨inside, -⟩ := List.getElem?_eq_some_iff.mp at_index
  have shape : ¬ ((leaderRecord msgs.length compressed).length < 5 ∨
      (leaderRecord msgs.length compressed).head? ≠ some walBatchMagic) := by
    simp [leaderRecord]
  have counted : (uint32 ((leaderRecord msgs.length compressed).drop 1)).toNat = msgs.length := by
    rw [leaderRecord, List.drop_succ_cons, List.drop_zero, uint32_put, UInt32.toNat_ofNat',
      Nat.mod_eq_of_lt count]
  have body : (leaderRecord msgs.length compressed).drop 5 = compressed := by
    rw [leaderRecord, List.drop_succ_cons]
    exact List.drop_left' (putUint32_length _)
  rw [readFromBatchData, if_neg shape]
  simp only [counted, body, installed, decoded]
  rw [if_neg (by omega)]
  have walked := walkPayload_frames msgs sizes [] index 0 0 m rfl at_index
  rwa [List.nil_append] at walked

theorem redirectTarget_redirectRecord {base index : Nat} (fits : base < 2 ^ 64) :
    redirectTarget (redirectRecord base index) = some base := by
  have shape : (redirectRecord base index).head? = some walRedirectMagic ∧
      13 ≤ (redirectRecord base index).length := by
    simp [redirectRecord]
  rw [redirectTarget, if_pos shape, redirectRecord, List.drop_succ_cons, List.drop_zero,
    uint64_put, UInt64.toNat_ofNat', Nat.mod_eq_of_lt fits]

theorem redirectRecord_index {base index : Nat} (fits : index < 2 ^ 32) :
    (uint32 ((redirectRecord base index).drop 9)).toNat = index := by
  have body : (redirectRecord base index).drop 9 = putUint32 (UInt32.ofNat index) ++ [] := by
    rw [redirectRecord, List.drop_succ_cons, List.append_nil]
    exact List.drop_left' (putUint64_length _)
  rw [body, uint32_put, UInt32.toNat_ofNat', Nat.mod_eq_of_lt fits]

section CompressedAppend

variable {p q : Partition} {msgs : List Message} {codec : Codec} {env : AppendEnv}
  {offsets : List Nat}

/-- The log after a successful compressed append: the leader under the first
offset, a redirect under each of the others. -/
theorem appendBatchCompressed_records (nonempty : msgs ≠ [])
    (success : p.appendBatchCompressed msgs codec env = (.ok offsets, q)) :
    ∃ compressed, codec.encode (batchPayload msgs env) = .ok compressed ∧
      offsets = List.range' p.nextOffset msgs.length ∧ q.batchCodec = p.batchCodec ∧
      p.nextOffset = p.log.nextIndex ∧ p.nextOffset < 2 ^ 64 ∧
      q.log.recordAt p.nextOffset = some (leaderRecord msgs.length compressed) ∧
      ∀ i, i + 1 < msgs.length →
        q.log.recordAt (p.nextOffset + (i + 1)) = some (redirectRecord p.nextOffset (i + 1)) := by
  rcases p.appendBatchCompressed_cases nonempty codec env with
    ⟨cause, -, result⟩ | ⟨compressed, encoded, outcome⟩
  · rw [result] at success
    cases success
  · rcases outcome with ⟨cause, -, result⟩ | ⟨log, written, result⟩
    · rw [result] at success
      cases success
    · rw [result] at success
      cases success
      have next := nextOffset_of_written written (p.compressedBatch_offsets nonempty compressed)
        (List.length_pos_of_ne_nil nonempty)
      have records := Log.recordAt_writeBatch_new written
      rw [p.compressedBatch_records] at records
      refine ⟨compressed, encoded, rfl, rfl, next, next ▸ p.log.next_fits, ?_, ?_⟩
      · rw [next]
        exact records 0
      · intro i inside
        rw [next]
        refine (records (i + 1)).trans ?_
        rw [batchRecords, List.getElem?_cons_succ, List.getElem?_map,
          List.getElem?_range' (by omega)]
        simp only [Option.map_some, Nat.one_mul, next]
        rw [Nat.add_comm]

/-- Every message of a successful compressed append can be read under its
offset, through the leader or through its redirect. -/
theorem read_of_appendBatchCompressed (nonempty : msgs ≠ []) (inverts : codec.Inverts)
    (installed : p.batchCodec = some codec) (count : msgs.length < 2 ^ 32)
    (sizes : ∀ m ∈ msgs, m.encodedSize < 2 ^ 32)
    (success : p.appendBatchCompressed msgs codec env = (.ok offsets, q))
    {i : Nat} {m : Message} (at_i : msgs[i]? = some m) :
    q.read (p.nextOffset + i) = .ok { m.stamp env.appendTime with batchDecoded := true } := by
  obtain ⟨compressed, encoded, -, codecEq, -, fits, leader, redirect⟩ :=
    appendBatchCompressed_records nonempty success
  obtain ⟨inside, -⟩ := List.getElem?_eq_some_iff.mp at_i
  have stampedSizes : ∀ m ∈ msgs.map (fun m => m.stamp env.appendTime),
      m.encodedSize < 2 ^ 32 := by
    intro stamped member
    obtain ⟨original, there, rfl⟩ := List.mem_map.mp member
    exact sizes original there
  have stampedAt : (msgs.map fun m => m.stamp env.appendTime)[i]? =
      some (m.stamp env.appendTime) := by
    rw [List.getElem?_map, at_i]
    rfl
  have extracted := readFromBatchData_leader (codecEq.trans installed)
    (inverts _ _ encoded) (by simpa using count) stampedSizes stampedAt
  rw [List.length_map] at extracted
  cases i with
  | zero =>
    have tag : leaderRecord msgs.length compressed =
        walBatchMagic :: (putUint32 (UInt32.ofNat msgs.length) ++ compressed) := rfl
    rw [Nat.add_zero, read, Log.read_eq_recordAt, leader]
    rw [tag] at extracted ⊢
    simp only [if_true]
    rw [if_neg (by decide)]
    exact extracted
  | succ i =>
    rw [read_of_redirect (redirect i inside) (redirectTarget_redirectRecord fits),
      redirectRecord_index (by omega), readFromBatch, Log.read_eq_recordAt, leader]
    exact extracted

/-- Compressed batches read back for good: the offsets are consecutive, and
whatever is appended afterwards, with whatever codecs and outcomes, each
message is found under its offset with its new append time. -/
theorem appendBatchCompressed_readsBack (nonempty : msgs ≠ []) (inverts : codec.Inverts)
    (installed : p.batchCodec = some codec) (count : msgs.length < 2 ^ 32)
    (sizes : ∀ m ∈ msgs, m.encodedSize < 2 ^ 32)
    (success : p.appendBatchCompressed msgs codec env = (.ok offsets, q))
    (later : List AppendCall) :
    offsets = List.range' p.nextOffset msgs.length ∧
    ∀ (i : Nat) (m : Message), msgs[i]? = some m → ∃ offset, offsets[i]? = some offset ∧
      (q.appends later).read offset =
        .ok { m.stamp env.appendTime with batchDecoded := true } := by
  obtain ⟨-, -, offsetsEq, -⟩ := appendBatchCompressed_records nonempty success
  refine ⟨offsetsEq, ?_⟩
  intro i m at_i
  obtain ⟨inside, -⟩ := List.getElem?_eq_some_iff.mp at_i
  refine ⟨p.nextOffset + i, ?_, ?_⟩
  · rw [offsetsEq, List.getElem?_range' inside, Nat.one_mul]
  · apply read_of_extends (extends_appends later q)
    exact read_of_appendBatchCompressed nonempty inverts installed count sizes success at_i

end CompressedAppend

theorem appendBatchCompressed_readsBack_sample :
    let p := freshFifo.setBatchCodec noopCodec
    let msgs := [sampleMessage 5 7 118, sampleMessage 255 8 119]
    let q := (p.appendBatchCompressed msgs noopCodec (steadyEnv 9)).2
    [1, 2] = List.range' 1 2 ∧ ∀ (i : Nat) (m : Message), msgs[i]? = some m →
      ∃ offset, [1, 2][i]? = some offset ∧ (q.appends
        [.plain [sampleMessage 1 10 120] (steadyEnv 11)]).read offset =
          .ok { m.stamp 9 with batchDecoded := true } :=
  @appendBatchCompressed_readsBack (freshFifo.setBatchCodec noopCodec) _
    [sampleMessage 5 7 118, sampleMessage 255 8 119] noopCodec (steadyEnv 9) [1, 2]
    (by decide) noopCodec_inverts rfl (by decide) (by decide) (Prod.ext (by decide) rfl) _

end Partition

end NyaQueue
