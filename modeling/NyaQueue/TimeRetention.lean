import NyaQueue.Retention
import Mathlib.Data.List.TakeWhile

/-!
# Retention by age

`TruncateBefore` decodes every record as if it were a plain message.  To say
what it then deletes, the history of a log is kept next to its bytes: which
messages each record carries.  A leader record holds its count and compressed
data where the scan expects a timestamp, and a redirect is too short for a
header and always stops the scan.
-/

set_option autoImplicit false

namespace NyaQueue

open BigEndian

/-- A record together with the messages it stands for. -/
inductive StoredRecord where
  | plain (m : Message)
  | leader (msgs : List Message) (packed : Bytes)
  | redirect (m : Message) (base index : Nat)

namespace StoredRecord

def bytes : StoredRecord → Bytes
  | .plain m => m.layout
  | .leader msgs packed => leaderRecord msgs.length packed
  | .redirect _ base index => redirectRecord base index

def carried : StoredRecord → List Message
  | .plain m => [m]
  | .leader msgs _ => msgs
  | .redirect m _ _ => [m]

/-- The record carries a message that has not expired. -/
def Fresh (cutoff : Int64) (record : StoredRecord) : Prop :=
  ∃ m ∈ record.carried, cutoff ≤ m.header.timestamp

def IsPlain : StoredRecord → Prop
  | .plain _ => True
  | _ => False

theorem not_fresh_iff (cutoff : Int64) (record : StoredRecord) :
    ¬ record.Fresh cutoff ↔ ∀ m ∈ record.carried, m.header.timestamp < cutoff := by
  simp only [Fresh, not_exists, not_and, Int64.not_le]

theorem headerBefore_plain (cutoff : Int64) (m : Message) :
    headerBefore cutoff (StoredRecord.plain m).bytes = true ↔
      ¬ (StoredRecord.plain m).Fresh cutoff := by
  rw [not_fresh_iff]
  simp [headerBefore, bytes, carried, Message.unmarshalHeader_layout]

theorem headerBefore_redirect (cutoff : Int64) (m : Message) (base index : Nat) :
    headerBefore cutoff (StoredRecord.redirect m base index).bytes = false := by
  have short : (redirectRecord base index).length < headerSize := by
    simp only [redirectRecord, List.length_cons, List.length_append, putUint64_length,
      putUint32_length]
    decide
  simp [headerBefore, bytes, unmarshalHeader, short]

end StoredRecord

/-! ## The history of a log -/

/-- The records of a compressed batch, annotated. -/
def annotatedBatch (base : Nat) (packed : Bytes) : List Message → List StoredRecord
  | [] => []
  | first :: rest =>
      .leader (first :: rest) packed ::
        (rest.zipIdx 1).map fun entry => .redirect entry.1 base entry.2

theorem annotatedBatch_bytes (base : Nat) (packed : Bytes) {msgs : List Message}
    (nonempty : msgs ≠ []) :
    (annotatedBatch base packed msgs).map StoredRecord.bytes =
      batchRecords base msgs.length packed := by
  cases msgs with
  | nil => exact absurd rfl nonempty
  | cons first rest =>
    have indices : (rest.zipIdx 1).map Prod.snd = List.range' 1 rest.length :=
      List.zipIdx_map_snd 1 rest
    rw [annotatedBatch, List.map_cons, List.map_map, batchRecords, List.length_cons,
      Nat.add_sub_cancel, ← indices, List.map_map]
    rfl

namespace AppendCall

/-- What the call adds to the log, annotated; nothing if it fails. -/
def annotated (p : Partition) (call : AppendCall) : List StoredRecord :=
  match (call.run p).1, call with
  | .error _, _ => []
  | .ok _, .plain msgs env => msgs.map fun m => .plain (m.stamp env.appendTime)
  | .ok _, .compressed msgs codec env =>
      match codec.encode (batchPayload msgs env) with
      | .error _ => []
      | .ok packed =>
          annotatedBatch p.nextOffset packed (msgs.map fun m => m.stamp env.appendTime)

theorem annotated_empty (p : Partition) (call : AppendCall) (empty : call.msgs = []) :
    call.annotated p = [] := by
  cases call with
  | plain msgs env =>
    change msgs = [] at empty
    subst empty
    rfl
  | compressed msgs codec env =>
    change msgs = [] at empty
    subst empty
    simp only [annotated, run, Partition.appendBatchCompressed_empty]
    cases codec.encode (batchPayload [] env) <;> rfl

theorem annotated_bytes {p : Partition} {call : AppendCall} {batch : List (Nat × Bytes)}
    {offsets : List Nat} {q : Partition} (nonempty : call.msgs ≠ [])
    (assembled : call.batch p = .ok batch) (success : call.run p = (.ok offsets, q)) :
    (call.annotated p).map StoredRecord.bytes = batch.map Prod.snd := by
  cases call with
  | plain msgs env =>
    cases assembled
    rw [assemble_records]
    simp only [annotated, success, List.map_map]
    rfl
  | compressed msgs codec env =>
    change msgs ≠ [] at nonempty
    simp only [AppendCall.batch] at assembled
    simp only [annotated, success]
    cases encoded : codec.encode (batchPayload msgs env) with
    | error cause =>
      rw [encoded] at assembled
      cases assembled
    | ok packed =>
      rw [encoded] at assembled
      cases assembled
      rw [Partition.compressedBatch_records]
      dsimp only
      rw [annotatedBatch_bytes _ _ (by simpa using nonempty), List.length_map]

theorem annotated_failed {p : Partition} {call : AppendCall} {error : AppendError}
    {q : Partition} (failed : call.run p = (.error error, q)) : call.annotated p = [] := by
  cases call <;> simp only [annotated, failed]

theorem run_entries (p : Partition) (call : AppendCall) :
    (call.run p).2.log.firstIndex = p.log.firstIndex ∧
    (call.run p).2.log.entries =
      p.log.entries ++ (call.annotated p).map StoredRecord.bytes := by
  by_cases empty : call.msgs = []
  · rw [call.run_empty p empty, call.annotated_empty p empty]
    simp
  · rcases call.run_cases p empty with ⟨error, -, failed⟩ | ⟨batch, assembled, -, -, outcome⟩
    · rw [annotated_failed failed, failed]
      simp
    · rcases outcome with ⟨cause, error, -, failed⟩ | ⟨log, written, success⟩
      · rw [annotated_failed failed, failed]
        simp [Partition.advance]
      · rw [annotated_bytes empty assembled success, success]
        obtain ⟨-, -, first, entries⟩ := Log.writeBatch_ok written
        exact ⟨first, entries⟩

end AppendCall

namespace Partition

/-- The annotated records that a sequence of append calls adds. -/
def history (p : Partition) : List AppendCall → List StoredRecord
  | [] => []
  | call :: rest => call.annotated p ++ history (call.run p).2 rest

theorem appends_entries (calls : List AppendCall) : ∀ p : Partition,
    (p.appends calls).log.firstIndex = p.log.firstIndex ∧
    (p.appends calls).log.entries =
      p.log.entries ++ (p.history calls).map StoredRecord.bytes := by
  induction calls with
  | nil => intro p; simp [appends, history]
  | cons call rest ih =>
    intro p
    obtain ⟨first, entries⟩ := call.run_entries p
    obtain ⟨firstRest, entriesRest⟩ := ih (call.run p).2
    refine ⟨firstRest.trans first, ?_⟩
    rw [history, List.map_append, ← List.append_assoc, ← entries]
    exact entriesRest

theorem ahead_appends (calls : List AppendCall) :
    ∀ p : Partition, p.Ahead → (p.appends calls).Ahead := by
  induction calls with
  | nil => intro p ahead; exact ahead
  | cons call rest ih => intro p ahead; exact ih _ (ahead_append ahead call)

/-! ## What the scan deletes -/

/-- The number of records the scan passes over. -/
def passed (cutoff : Int64) (records : List StoredRecord) : Nat :=
  (records.takeWhile fun record => headerBefore cutoff record.bytes).length

theorem passed_eq (cutoff : Int64) (records : List StoredRecord) :
    ((records.map StoredRecord.bytes).takeWhile (headerBefore cutoff)).length =
      passed cutoff records := by
  rw [List.takeWhile_map, List.length_map]
  rfl

/-- The purpose of time retention: whatever is deleted has expired, and after a
call without error the oldest remaining record is fresh or the only one. -/
structure DropsOnlyExpired (records : List StoredRecord) (cutoff : Int64)
    (result : Except WalError (Nat × Nat) × Partition) : Prop where
  expired : ∀ (i : Nat) (record : StoredRecord), records[i]? = some record →
    result.2.log.recordAt (1 + i) = none → ∀ m ∈ record.carried, m.header.timestamp < cutoff
  oldest : ∀ counts record, result.1 = .ok counts →
    records[result.2.log.firstIndex - 1]? = some record →
    record.Fresh cutoff ∨ result.2.log.firstIndex = records.length

/-- The records the scan misreads do no harm: the leaders it passes over carry
only expired messages, and a record of a compressed batch it stops at is fresh
or the newest.  When it passes over everything the log refuses the cut. -/
def ScanHarmless (records : List StoredRecord) (cutoff : Int64) : Prop :=
  passed cutoff records = records.length ∨
  (∀ record ∈ records.take (passed cutoff records), ¬ record.IsPlain → ¬ record.Fresh cutoff) ∧
  ∀ record, records[passed cutoff records]? = some record → ¬ record.IsPlain →
    record.Fresh cutoff ∨ passed cutoff records + 1 = records.length

variable {records : List StoredRecord} {cutoff : Int64} {record : StoredRecord}

theorem truncateBefore_of_history {p : Partition} (ahead : p.Ahead) (first : p.log.firstIndex = 1)
    (entries : p.log.entries = records.map StoredRecord.bytes) (cutoff : Int64) :
    (passed cutoff records = records.length ∧ (p.truncateBefore cutoff).2 = p ∧
      ∀ counts, (p.truncateBefore cutoff).1 = .ok counts → records = []) ∨
    (passed cutoff records < records.length ∧
      (∃ counts, (p.truncateBefore cutoff).1 = .ok counts) ∧
      p.CutAt (1 + passed cutoff records) (p.truncateBefore cutoff).2) := by
  have cut : (RetentionCall.truncateBefore cutoff).cut p = 1 + passed cutoff records := by
    rw [RetentionCall.cut, first, entries, passed_eq]
  have bound : passed cutoff records ≤ records.length :=
    ( List.takeWhile_prefix _).length_le
  have count : p.log.entries.length = records.length := by rw [entries, List.length_map]
  rcases Nat.lt_or_eq_of_le bound with short | whole
  · have stops : (p.log.entries.takeWhile (headerBefore cutoff)).length <
        p.log.entries.length := by
      rw [count, entries, passed_eq]
      exact short
    obtain ⟨counts, q, success⟩ := truncateBefore_succeeds ahead stops
    have cutAt := truncateBefore_cutAt ahead success
    rw [cut] at cutAt
    rw [success]
    exact .inr ⟨short, ⟨counts, rfl⟩, cutAt⟩
  · refine .inl ⟨whole, ?_⟩
    rcases p.truncateBefore_outcome cutoff with ⟨cause, failed⟩ | ⟨counts, q, success⟩
    · rw [failed]
      exact ⟨rfl, fun counts impossible => by cases impossible⟩
    · -- a cut behind the last record is refused, so there was none
      have cutAt := truncateBefore_cutAt ahead success
      rw [cut, whole] at cutAt
      have start := cutAt.firstIndex
      have next := cutAt.nextIndex
      unfold Log.nextIndex at next
      have none : q.log.entries = [] := List.length_eq_zero_iff.mp (by omega)
      have empty : records = [] := by
        have := q.log.empty_first none
        exact List.length_eq_zero_iff.mp (by omega)
      have blank : p.log.entries = [] := by rw [entries, empty]; rfl
      have idle : p.truncateBefore cutoff = (.ok (0, 0), p) := by
        rcases p.firstIndex?_eq with ⟨-, zero⟩ | ⟨some, -⟩
        · simp only [truncateBefore, zero, if_true]
        · exact absurd blank some
      rw [idle]
      exact ⟨rfl, fun _ _ => empty⟩

theorem headerBefore_of_passed (member : record ∈ records.take (passed cutoff records)) :
    headerBefore cutoff record.bytes = true := by
  have same := List.prefix_iff_eq_take.mp
    ( List.takeWhile_prefix (l := records) fun record => headerBefore cutoff record.bytes)
  rw [passed, ← same] at member
  exact List.mem_takeWhile_imp (p := fun r : StoredRecord => headerBefore cutoff r.bytes) member

theorem headerBefore_of_stop :
    ∀ {records : List StoredRecord}, records[passed cutoff records]? = some record →
      headerBefore cutoff record.bytes = false
  | [], stop => by cases stop
  | next :: rest, stop => by
      by_cases older : headerBefore cutoff next.bytes = true
      · have further : passed cutoff (next :: rest) = passed cutoff rest + 1 := by
          simp [passed, older]
        rw [further, List.getElem?_cons_succ] at stop
        exact headerBefore_of_stop stop
      · have here : passed cutoff (next :: rest) = 0 := by simp [passed, older]
        rw [here, List.getElem?_cons_zero, Option.some.injEq] at stop
        rw [← stop]
        exact Bool.eq_false_of_not_eq_true older

theorem ScanHarmless.passed_plain (leaders : ∀ record ∈ records.take (passed cutoff records),
      ¬ record.IsPlain → ¬ record.Fresh cutoff)
    (member : record ∈ records.take (passed cutoff records)) :
    ¬ record.Fresh cutoff := by
  cases record with
  | plain m =>
    have older := headerBefore_of_passed member
    exact (StoredRecord.headerBefore_plain cutoff m).mp older
  | leader msgs packed => exact leaders _ member not_false
  | redirect m base index =>
    have older := headerBefore_of_passed member
    rw [StoredRecord.headerBefore_redirect] at older
    cases older

theorem ScanHarmless.stop_plain
    (last : ∀ record, records[passed cutoff records]? = some record → ¬ record.IsPlain →
      record.Fresh cutoff ∨ passed cutoff records + 1 = records.length)
    (stop : records[passed cutoff records]? = some record) :
    record.Fresh cutoff ∨ passed cutoff records + 1 = records.length := by
  cases record with
  | plain m =>
    left
    by_contra expired
    have kept := headerBefore_of_stop stop
    rw [(StoredRecord.headerBefore_plain cutoff m).mpr expired] at kept
    cases kept
  | leader msgs packed => exact last _ stop not_false
  | redirect m base index => exact last _ stop not_false

section History

variable {p q : Partition} {records : List StoredRecord} {cutoff : Int64}

theorem recordAt_of_history (first : p.log.firstIndex = 1)
    (entries : p.log.entries = records.map StoredRecord.bytes) {i : Nat} {record : StoredRecord}
    (at_i : records[i]? = some record) : p.log.recordAt (1 + i) = some record.bytes := by
  have remaining := p.log.remaining_all i
  rw [first, entries, List.getElem?_map, at_i] at remaining
  exact remaining

theorem scanHarmless_of_dropsOnlyExpired {counts : Nat × Nat}
    (cutAt : p.CutAt (1 + passed cutoff records) q)
    (start : q.log.firstIndex = passed cutoff records + 1)
    (drops : DropsOnlyExpired records cutoff (.ok counts, q)) : ScanHarmless records cutoff := by
  refine .inr ⟨?_, ?_⟩
  · intro record member _
    rw [StoredRecord.not_fresh_iff]
    obtain ⟨i, at_i⟩ := List.getElem?_of_mem member
    rw [List.getElem?_take] at at_i
    split at at_i
    · rename_i before
      apply drops.expired i record at_i
      rw [cutAt.recordAt, if_neg (by omega)]
    · cases at_i
  · intro record stop _
    have oldest := drops.oldest counts record rfl (by rw [start]; exact stop)
    rw [start] at oldest
    exact oldest

theorem dropsOnlyExpired_of_scanHarmless {counts : Nat × Nat} (first : p.log.firstIndex = 1)
    (entries : p.log.entries = records.map StoredRecord.bytes)
    (cutAt : p.CutAt (1 + passed cutoff records) q)
    (start : q.log.firstIndex = passed cutoff records + 1)
    (short : passed cutoff records < records.length) (harmless : ScanHarmless records cutoff) :
    DropsOnlyExpired records cutoff (.ok counts, q) := by
  rcases harmless with whole | ⟨leaders, last⟩
  · omega
  · refine ⟨?_, ?_⟩
    · intro i record at_i gone
      rw [← StoredRecord.not_fresh_iff]
      have before : i < passed cutoff records := by
        by_contra kept
        rw [cutAt.recordAt, if_pos (by omega), recordAt_of_history first entries at_i] at gone
        cases gone
      apply ScanHarmless.passed_plain leaders
      exact List.mem_of_getElem? (by rw [List.getElem?_take, if_pos before, at_i])
    · intro _ record _ stop
      rw [start, Nat.add_sub_cancel] at stop
      rw [start]
      exact ScanHarmless.stop_plain last stop

theorem dropsOnlyExpired_of_unchanged (first : p.log.firstIndex = 1)
    (entries : p.log.entries = records.map StoredRecord.bytes)
    {result : Except WalError (Nat × Nat) × Partition} (same : result.2 = p)
    (idle : ∀ counts, result.1 = .ok counts → records = []) :
    DropsOnlyExpired records cutoff result := by
  refine ⟨?_, ?_⟩
  · intro i record at_i gone
    rw [same, recordAt_of_history first entries at_i] at gone
    cases gone
  · intro counts record success stop
    rw [idle counts success] at stop
    cases stop

theorem dropsOnlyExpired_iff (ahead : p.Ahead) (first : p.log.firstIndex = 1)
    (entries : p.log.entries = records.map StoredRecord.bytes) :
    DropsOnlyExpired records cutoff (p.truncateBefore cutoff) ↔ ScanHarmless records cutoff := by
  rcases truncateBefore_of_history ahead first entries cutoff with
    ⟨whole, same, idle⟩ | ⟨short, ⟨counts, success⟩, cutAt⟩
  · exact ⟨fun _ => .inl whole, fun _ => dropsOnlyExpired_of_unchanged first entries same idle⟩
  · have start : (p.truncateBefore cutoff).2.log.firstIndex = passed cutoff records + 1 := by
      rw [cutAt.firstIndex, first]
      omega
    have result : p.truncateBefore cutoff = (.ok counts, (p.truncateBefore cutoff).2) :=
      Prod.ext success rfl
    rw [result]
    exact ⟨scanHarmless_of_dropsOnlyExpired cutAt start,
      dropsOnlyExpired_of_scanHarmless first entries cutAt start short⟩

end History

/-- Time retention on a log built by appends does what it is for exactly when
the records that the scan misreads do no harm. -/
theorem truncateBefore_drops_only_expired_iff (id : Int) (mode : ScheduleMode)
    (codec : Option Codec) (calls : List AppendCall) (cutoff : Int64) :
    DropsOnlyExpired ((opened id Log.empty mode codec).history calls) cutoff
        (((opened id Log.empty mode codec).appends calls).truncateBefore cutoff) ↔
      ScanHarmless ((opened id Log.empty mode codec).history calls) cutoff := by
  obtain ⟨first, entries⟩ := appends_entries calls (opened id Log.empty mode codec)
  have ahead := ahead_appends calls _ (ahead_opened id Log.empty mode codec)
  exact dropsOnlyExpired_iff ahead first entries

/-- A compressed batch of two messages with timestamp 10^18 loses its leader to
a cutoff a year earlier: the scan takes the batch count for a timestamp. -/
theorem truncateBefore_drops_fresh_leader :
    let pair := [sampleMessage 5 1000000000000000000 118, sampleMessage 5 1000000000000000000 119]
    let call := AppendCall.compressed pair noopCodec (steadyEnv 1000000000000000001)
    let p := (opened 0 Log.empty .fifo (some noopCodec)).appends [call]
    let result := p.truncateBefore 968464000000000000
    result.1 = .ok (1, 75) ∧ result.2.log.firstIndex = 2 ∧
    ¬ DropsOnlyExpired ((opened 0 Log.empty .fifo (some noopCodec)).history [call])
        968464000000000000 result := by
  intro pair call p result
  refine ⟨by decide +kernel, by decide +kernel, ?_⟩
  intro drops
  have expired := drops.expired 0 _ rfl (by decide +kernel)
    ((sampleMessage 5 1000000000000000000 118).stamp 1000000000000000001) (by decide +kernel)
  revert expired
  decide +kernel

end Partition

end NyaQueue
