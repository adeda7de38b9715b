import NyaQueue.Partition
import NyaQueue.Lib.Checked

/-!
# Reading records that nobody wrote

`Partition.Read` once more, with every slice and index expression checked as
the language checks it and with a record of what the read did: the WAL offsets
it read, the payload it walked, the rounds of the walk and the largest position
it computed.  On every log and with every codec the checked read answers, with
the result of the plain one.
-/

set_option autoImplicit false

namespace NyaQueue

open BigEndian Checked

/-! ## The checked read -/

structure ReadRun where
  /-- `none` when an expression went out of range -/
  result : Option (Except ReadError Message)
  walReads : List Nat
  /-- the length of the payload walked -/
  walked : Nat
  rounds : Nat
  /-- the largest position computed by the walk -/
  largest : Nat

namespace ReadRun

/-- A run that ends without a walk. -/
def stop (result : Option (Except ReadError Message)) : ReadRun := ⟨result, [], 0, 0, 0⟩

/-- A run that continues after the WAL was read at `offset`. -/
def reading (offset : Nat) (run : ReadRun) : ReadRun :=
  { run with walReads := offset :: run.walReads }

/-- A run that continues after one round of the walk that got to `position`. -/
def afterRound (position : Nat) (run : ReadRun) : ReadRun :=
  { run with rounds := run.rounds + 1, largest := max position run.largest }

end ReadRun

/-- `UnmarshalMessage` -/
def unmarshalMessageChecked (data : Bytes) : Option (Except MessageError Message) :=
  if data.length < metadataSize then some (.error (.tooShort data.length))
  else do
    let word ← (suffix? data keyLenOff).bind uint32?
    let kl := word.toNat
    if data.length < metadataSize + kl then
      return .error (.truncated data.length (metadataSize + kl) kl)
    else
      let key ← slice? data keyOff (keyOff + kl)
      let value ← suffix? data (keyOff + kl)
      let priority ← data[priorityOffset]?
      let timestamp ← (suffix? data timestampOff).bind uint64?
      let produceTime ← (suffix? data produceTimeOff).bind uint64?
      let appendTime ← (suffix? data appendTimeOff).bind uint64?
      return .ok {
        header := {
          priority := priority
          timestamp := timestamp.toInt64
          produceTime := produceTime.toInt64
          appendTime := appendTime.toInt64 }
        key := key
        value := value }

/-- The start of a round of the walk: the length prefix at `off`. -/
def roundChecked (payload : Bytes) (i off : Nat) (found : Nat → ReadRun) : ReadRun :=
  if payload.length < off + 4 then
    ⟨some (.error (.corruptPayload i)), [], payload.length, 1, off + 4⟩
  else
    ((suffix? payload off).bind uint32?).elim ⟨none, [], payload.length, 1, off + 4⟩
      fun word => found word.toNat

/-- The message that the walk arrived at. -/
def messageChecked (payload : Bytes) (i off msgLen : Nat) : Option (Except ReadError Message) :=
  if payload.length < off + msgLen then some (.error (.messageTruncated i))
  else do
    let data ← slice? payload off (off + msgLen)
    let decoded ← unmarshalMessageChecked data
    return (decoded.mapError (.unmarshalInBatch i)).map fun msg => { msg with batchDecoded := true }

/-- The walk of `readFromBatchData`, with `ahead` messages still to skip. -/
def walkChecked (payload : Bytes) : Nat → Nat → Nat → ReadRun
  | 0, i, off =>
      roundChecked payload i off fun msgLen =>
        ⟨messageChecked payload i (off + 4) msgLen, [], payload.length, 1, off + 4 + msgLen⟩
  | ahead + 1, i, off =>
      roundChecked payload i off fun msgLen =>
        (walkChecked payload ahead (i + 1) (off + 4 + msgLen)).afterRound (off + 4 + msgLen)

namespace Partition

/-- The payload of a batch record, decompressed when a codec is set. -/
def decodedPayload (p : Partition) (compressed : Bytes) : Except CodecError Bytes :=
  p.batchCodec.elim (.ok compressed) fun codec => codec.decode compressed

def readFromBatchDataChecked (p : Partition) (data : Bytes) (index : Nat) : ReadRun :=
  if data.length < 5 then .stop (some (.error .notBatchRecord))
  else
    data[0]?.elim (.stop none) fun tag =>
      if tag ≠ walBatchMagic then .stop (some (.error .notBatchRecord))
      else
        ((slice? data 1 5).bind uint32?).elim (.stop none) fun count =>
          if count.toNat ≤ index then
            .stop (some (.error (.batchIndexOutOfRange index count.toNat)))
          else
            (suffix? data 5).elim (.stop none) fun compressed =>
              match p.decodedPayload compressed with
              | .error cause => .stop (some (.error (.decompressBatch cause)))
              | .ok payload => walkChecked payload index 0 0

def readFromBatchChecked (p : Partition) (batchOffset index : Nat) : ReadRun :=
  (match p.log.read batchOffset with
    | .error cause => ReadRun.stop (some (.error (.walReadBatch batchOffset cause)))
    | .ok data => p.readFromBatchDataChecked data index).reading batchOffset

/-- What `Read` does with a record. -/
def dispatchChecked (p : Partition) (offset : Nat) (data : Bytes) : ReadRun :=
  if data.length = 0 then .stop (some (.error (.emptyEntry offset)))
  else
    data[0]?.elim (.stop none) fun tag =>
      if tag = walRedirectMagic then
        if data.length < 13 then .stop (some (.error (.corruptRedirect offset)))
        else
          ((slice? data 1 9).bind uint64?).elim (.stop none) fun batchBase =>
            ((slice? data 9 13).bind uint32?).elim (.stop none) fun idx =>
              p.readFromBatchChecked batchBase.toNat idx.toNat
      else if tag = walBatchMagic then p.readFromBatchDataChecked data 0
      else .stop ((unmarshalMessageChecked data).map fun decoded => decoded.mapError .unmarshal)

def readChecked (p : Partition) (offset : Nat) : ReadRun :=
  (match p.log.read offset with
    | .error cause => ReadRun.stop (some (.error (.walRead offset cause)))
    | .ok data => p.dispatchChecked offset data).reading offset

end Partition

/-! ## No expression goes out of range -/

theorem unmarshalMessageChecked_eq (data : Bytes) :
    unmarshalMessageChecked data = some (unmarshalMessage data) := by
  unfold unmarshalMessageChecked unmarshalMessage
  by_cases short : data.length < metadataSize
  · rw [if_pos short, if_pos short]
  · rw [if_neg short, if_neg short]
    -- the metadata is there, so every fixed field can be read
    have layout : metadataSize = 29 ∧ keyOff = 29 ∧ keyLenOff = 25 ∧ appendTimeOff = 17 ∧
      produceTimeOff = 9 ∧ timestampOff = 1 ∧ priorityOffset = 0 := by decide
    have priority : data[priorityOffset]? = some (data.getD priorityOffset 0) := by
      cases data with
      | nil => exact absurd short (by decide)
      | cons tag body => rfl
    have keyLen : (suffix? data keyLenOff).bind uint32? = some (uint32 (data.drop keyLenOff)) :=
      uint32?_suffix (by omega)
    have timestamp : (suffix? data timestampOff).bind uint64? =
      some (uint64 (data.drop timestampOff)) := uint64?_suffix (by omega)
    have produceTime : (suffix? data produceTimeOff).bind uint64? =
      some (uint64 (data.drop produceTimeOff)) := uint64?_suffix (by omega)
    have appendTime : (suffix? data appendTimeOff).bind uint64? =
      some (uint64 (data.drop appendTimeOff)) := uint64?_suffix (by omega)
    simp only [keyLen, Option.bind_eq_bind, Option.bind_some]
    by_cases cut : data.length < metadataSize + (uint32 (data.drop keyLenOff)).toNat
    · rw [if_pos cut, if_pos cut]
      rfl
    · rw [if_neg cut, if_neg cut]
      -- and the key length was checked before the key is sliced
      have key := slice?_of_le (Nat.le_add_right keyOff (uint32 (data.drop keyLenOff)).toNat)
        (show keyOff + (uint32 (data.drop keyLenOff)).toNat ≤ data.length by omega)
      have value := suffix?_of_le
        (show keyOff + (uint32 (data.drop keyLenOff)).toNat ≤ data.length by omega)
      rw [Nat.add_sub_cancel_left] at key
      simp only [key, value, priority, timestamp, produceTime, appendTime, Option.bind_some]
      rfl

/-! ## The walk -/

theorem roundChecked_short {payload : Bytes} {off : Nat} (short : payload.length < off + 4)
    (i : Nat) (found : Nat → ReadRun) :
    roundChecked payload i off found =
      ⟨some (.error (.corruptPayload i)), [], payload.length, 1, off + 4⟩ :=
  if_pos short

theorem roundChecked_found {payload : Bytes} {off : Nat} (inside : off + 4 ≤ payload.length)
    (i : Nat) (found : Nat → ReadRun) :
    roundChecked payload i off found = found (uint32 (payload.drop off)).toNat := by
  rw [roundChecked, if_neg (Nat.not_lt.mpr inside), uint32?_suffix inside]
  rfl

theorem messageChecked_eq (payload : Bytes) (i off msgLen : Nat) :
    messageChecked payload i off msgLen =
      some (if payload.length < off + msgLen then .error (.messageTruncated i)
        else ((unmarshalMessage ((payload.drop off).take msgLen)).mapError
          (.unmarshalInBatch i)).map fun msg => { msg with batchDecoded := true }) := by
  unfold messageChecked
  by_cases cut : payload.length < off + msgLen
  · rw [if_pos cut, if_pos cut]
  · rw [if_neg cut, if_neg cut, slice?_of_le (Nat.le_add_right off msgLen) (Nat.not_lt.mp cut),
      Nat.add_sub_cancel_left]
    simp only [unmarshalMessageChecked_eq, Option.bind_eq_bind, Option.bind_some]
    rfl

/-- What a walk from `off` did: it answered, read nothing from the WAL, moved
on by at least four bytes a round, and computed no position far behind the
payload. -/
structure WalkSafe (payload : Bytes) (off : Nat) (answer : Except ReadError Message)
    (run : ReadRun) : Prop where
  answers : run.result = some answer
  walReads : run.walReads = []
  walked : run.walked = payload.length
  rounds : 4 * run.rounds + off ≤ max payload.length off + 4
  largest : run.largest ≤ payload.length + 2 ^ 32 + 3

theorem walkChecked_safe (payload : Bytes) (ahead : Nat) :
    ∀ i off : Nat, off < payload.length + 2 ^ 32 →
      WalkSafe payload off (walkPayload payload ahead i off) (walkChecked payload ahead i off) := by
  have word_lt : ∀ bytes : Bytes, (uint32 bytes).toNat < 2 ^ 32 := fun bytes =>
    (uint32 bytes).toNat_lt
  induction ahead with
  | zero =>
    intro i off start
    rw [walkChecked]
    by_cases inside : off + 4 ≤ payload.length
    · have small := word_lt (payload.drop off)
      rw [roundChecked_found inside, walkPayload_last inside, messageChecked_eq]
      exact ⟨rfl, rfl, rfl, by dsimp only; omega, by dsimp only; omega⟩
    · have short := Nat.lt_of_not_le inside
      rw [roundChecked_short short, walkPayload_short short]
      exact ⟨rfl, rfl, rfl, by dsimp only; omega, by dsimp only; omega⟩
  | succ ahead ih =>
    intro i off start
    rw [walkChecked]
    by_cases inside : off + 4 ≤ payload.length
    · have small := word_lt (payload.drop off)
      rw [roundChecked_found inside, walkPayload_next inside]
      have later := ih (i + 1) (off + 4 + (uint32 (payload.drop off)).toNat) (by omega)
      have rounds := later.rounds
      have largest := later.largest
      exact ⟨later.answers, later.walReads, later.walked,
        by simp only [ReadRun.afterRound]; omega, by simp only [ReadRun.afterRound]; omega⟩
    · have short := Nat.lt_of_not_le inside
      rw [roundChecked_short short, walkPayload_short short]
      exact ⟨rfl, rfl, rfl, by dsimp only; omega, by dsimp only; omega⟩

/-! ## The whole read -/

/-- What a part of the read path did, with at most `reads` WAL reads. -/
structure ReadSafe (reads : Nat) (answer : Except ReadError Message) (run : ReadRun) : Prop where
  answers : run.result = some answer
  walReads : run.walReads.length ≤ reads
  rounds : 4 * run.rounds ≤ run.walked + 4
  largest : run.largest ≤ run.walked + 2 ^ 32 + 3

theorem readSafe_stop (reads : Nat) (answer : Except ReadError Message) :
    ReadSafe reads answer (.stop (some answer)) :=
  ⟨rfl, Nat.zero_le _, Nat.zero_le _, Nat.zero_le _⟩

theorem ReadSafe.reading {reads offset : Nat} {answer : Except ReadError Message} {run : ReadRun}
    (safe : ReadSafe reads answer run) : ReadSafe (reads + 1) answer (run.reading offset) :=
  ⟨safe.answers, Nat.succ_le_succ safe.walReads, safe.rounds, safe.largest⟩

theorem ReadSafe.more {reads more : Nat} {answer : Except ReadError Message} {run : ReadRun}
    (safe : ReadSafe reads answer run) (fewer : reads ≤ more) : ReadSafe more answer run :=
  ⟨safe.answers, Nat.le_trans safe.walReads fewer, safe.rounds, safe.largest⟩

theorem readSafe_walk (payload : Bytes) (index : Nat) :
    ReadSafe 0 (walkPayload payload index 0 0) (walkChecked payload index 0 0) := by
  have safe := walkChecked_safe payload index 0 0 (by omega)
  have rounds := safe.rounds
  refine ⟨safe.answers, ?_, ?_, ?_⟩
  · rw [safe.walReads]
    exact Nat.le_refl 0
  · rw [safe.walked]
    omega
  · rw [safe.walked]
    exact safe.largest

namespace Partition

theorem readFromBatchData_walk {p : Partition} {data : Bytes} {index : Nat}
    (batch : ¬ (data.length < 5 ∨ data.head? ≠ some walBatchMagic))
    (inside : ¬ (uint32 (data.drop 1)).toNat ≤ index) :
    p.readFromBatchData data index =
      match p.decodedPayload (data.drop 5) with
      | .error cause => .error (.decompressBatch cause)
      | .ok payload => walkPayload payload index 0 0 := by
  unfold readFromBatchData decodedPayload
  rw [if_neg batch]
  dsimp only
  rw [if_neg inside]
  cases p.batchCodec with
  | none => rfl
  | some codec => rfl

theorem readFromBatchData_safe (p : Partition) (data : Bytes) (index : Nat) :
    ReadSafe 0 (p.readFromBatchData data index) (p.readFromBatchDataChecked data index) := by
  unfold readFromBatchDataChecked
  by_cases short : data.length < 5
  · rw [if_pos short, readFromBatchData, if_pos (.inl short)]
    exact readSafe_stop 0 _
  obtain ⟨tag, body, rfl⟩ : ∃ tag body, data = tag :: body :=
    List.exists_cons_of_ne_nil (by rintro rfl; exact short (by decide))
  rw [if_neg short, List.getElem?_cons_zero, Option.elim_some]
  by_cases other : tag = walBatchMagic
  · rw [if_neg (not_not.mpr other)]
    have batch : ¬ ((tag :: body).length < 5 ∨ (tag :: body).head? ≠ some walBatchMagic) := by
      rintro (few | differs)
      · exact short few
      · exact differs (congrArg some other)
    have count : (slice? (tag :: body) 1 5).bind uint32? =
        some (uint32 ((tag :: body).drop 1)) := uint32?_slice (by omega)
    rw [count, Option.elim_some]
    by_cases outside : (uint32 ((tag :: body).drop 1)).toNat ≤ index
    · rw [if_pos outside, readFromBatchData, if_neg batch]
      dsimp only
      rw [if_pos outside]
      exact readSafe_stop 0 _
    · rw [if_neg outside, suffix?_of_le (by omega), Option.elim_some,
        readFromBatchData_walk batch outside]
      cases p.decodedPayload ((tag :: body).drop 5) with
      | error cause => exact readSafe_stop 0 _
      | ok payload => exact readSafe_walk payload index
  · rw [if_pos other, readFromBatchData, if_pos (.inr fun same => other (Option.some.inj same))]
    exact readSafe_stop 0 _

theorem readFromBatch_safe (p : Partition) (batchOffset index : Nat) :
    ReadSafe 1 (p.readFromBatch batchOffset index) (p.readFromBatchChecked batchOffset index) := by
  unfold readFromBatch readFromBatchChecked
  refine ReadSafe.reading ?_
  cases p.log.read batchOffset with
  | error cause => exact readSafe_stop 0 _
  | ok data => exact p.readFromBatchData_safe data index

theorem dispatch_safe {p : Partition} {offset : Nat} {data : Bytes}
    (found : p.log.read offset = .ok data) :
    ReadSafe 1 (p.read offset) (p.dispatchChecked offset data) := by
  unfold read dispatchChecked
  rw [found]
  cases data with
  | nil => exact readSafe_stop 1 _
  | cons tag body =>
    rw [if_neg (by simp), List.getElem?_cons_zero, Option.elim_some]
    dsimp only
    by_cases redirect : tag = walRedirectMagic
    · rw [if_pos redirect, if_pos redirect]
      by_cases short : (tag :: body).length < 13
      · rw [if_pos short, if_pos short]
        exact readSafe_stop 1 _
      · have batchBase : (slice? (tag :: body) 1 9).bind uint64? =
            some (uint64 ((tag :: body).drop 1)) := uint64?_slice (by omega)
        have idx : (slice? (tag :: body) 9 13).bind uint32? =
            some (uint32 ((tag :: body).drop 9)) := uint32?_slice (by omega)
        rw [if_neg short, if_neg short, batchBase, Option.elim_some, idx, Option.elim_some]
        exact p.readFromBatch_safe _ _
    · rw [if_neg redirect, if_neg redirect]
      by_cases batch : tag = walBatchMagic
      · rw [if_pos batch, if_pos batch]
        exact (p.readFromBatchData_safe _ 0).more (Nat.zero_le 1)
      · rw [if_neg batch, if_neg batch, unmarshalMessageChecked_eq]
        cases unmarshalMessage (tag :: body) with
        | error cause => exact readSafe_stop 1 _
        | ok msg => exact readSafe_stop 1 _

/-- Every log, whatever its records hold, every codec and every offset: the
read answers with a message or an error, no slice or index expression goes out
of range, the WAL is read at the offset and at most once more, and the walk
ends after at most one round for every four bytes of the payload and one more.
No position that the walk computes exceeds the payload by more than the largest
length prefix. -/
theorem read_is_safe (p : Partition) (offset : Nat) :
    (p.readChecked offset).result = some (p.read offset) ∧
      (∃ further, (p.readChecked offset).walReads = offset :: further ∧ further.length ≤ 1) ∧
      4 * (p.readChecked offset).rounds ≤ (p.readChecked offset).walked + 4 ∧
      (p.readChecked offset).largest ≤ (p.readChecked offset).walked + 2 ^ 32 + 3 := by
  unfold readChecked
  cases found : p.log.read offset with
  | error cause =>
      have failed : p.read offset = .error (.walRead offset cause) := by
        unfold read
        rw [found]
      rw [failed]
      exact ⟨rfl, ⟨[], rfl, Nat.zero_le 1⟩, Nat.zero_le _, Nat.zero_le _⟩
  | ok data =>
      have safe := dispatch_safe found
      exact ⟨safe.answers, ⟨_, rfl, safe.walReads⟩, safe.rounds, safe.largest⟩

/-- A redirect to a redirect, and a leader whose length prefix is `2 ^ 32 - 1`. -/
def hostileLog : Log where
  firstIndex := 5
  entries := [redirectRecord 6 4294967295, redirectRecord 7 0,
    leaderRecord 4294967295 [255, 255, 255, 255, 0]]
  firstIndex_pos := by decide
  empty_first := fun none => absurd none (List.cons_ne_nil _ _)
  next_fits := by decide

example : ((Partition.new 0 hostileLog .fifo).readChecked 5).result =
    some (.error .notBatchRecord) := rfl

example : ((Partition.new 0 hostileLog .fifo).readChecked 6).result =
    some (.error (.messageTruncated 0)) := rfl

end Partition

end NyaQueue
