import NyaQueue.ReadBack

/-!
# Retention

The three truncation routines all end in a front cut of the log.  `cut` states
where, as a function of the records alone; the scans are shown to find exactly
that place.  Nothing in a cut looks at batch boundaries, so a redirect can
outlive its leader, and `truncation_keeps_reads_iff` says precisely when that
happens.
-/

set_option autoImplicit false

namespace NyaQueue

open BigEndian

/-- The scan of `TruncateBefore` passes over this record. -/
def headerBefore (cutoff : Int64) (data : Bytes) : Bool :=
  match unmarshalHeader data with
  | .error _ => false
  | .ok hdr => decide (hdr.timestamp < cutoff)

def bytesOf (records : List Bytes) : Nat := (records.map List.length).sum

/-- The least number of leading records to drop for the rest to fit. -/
def leadingExcess (maxBytes : Int) : List Bytes → Nat
  | [] => 0
  | data :: rest =>
      if (bytesOf (data :: rest) : Int) ≤ maxBytes then 0 else leadingExcess maxBytes rest + 1

inductive RetentionCall where
  | truncateFront (offset : Nat)
  | truncateBefore (cutoff : Int64)
  | truncateOldestUntilSize (maxBytes : Int)

namespace RetentionCall

def run (p : Partition) : RetentionCall → Except WalError Unit × Partition
  | .truncateFront offset => p.truncateFront offset
  | .truncateBefore cutoff =>
      ((p.truncateBefore cutoff).1.map fun _ => (), (p.truncateBefore cutoff).2)
  | .truncateOldestUntilSize maxBytes =>
      ((p.truncateOldestUntilSize maxBytes).1.map fun _ => (),
        (p.truncateOldestUntilSize maxBytes).2)

/-- The index from which on records are kept. -/
def cut (p : Partition) : RetentionCall → Nat
  | .truncateFront offset => offset
  | .truncateBefore cutoff =>
      p.log.firstIndex + (p.log.entries.takeWhile (headerBefore cutoff)).length
  | .truncateOldestUntilSize maxBytes =>
      p.log.firstIndex + leadingExcess maxBytes p.log.entries

end RetentionCall

/-! ## The scans find the cut -/

/-- `rest` lists the records from `off` to the end of the log. -/
def Log.Remaining (log : Log) (off : Nat) (rest : List Bytes) : Prop :=
  ∀ i : Nat, log.recordAt (off + i) = rest[i]?

theorem Log.remaining_all (log : Log) : log.Remaining log.firstIndex log.entries := by
  intro i
  rw [Log.recordAt, if_pos (Nat.le_add_right _ _), Nat.add_sub_cancel_left]

variable {log : Log} {off : Nat}

theorem Log.Remaining.tail {data : Bytes} {rest : List Bytes}
    (remaining : log.Remaining off (data :: rest)) : log.Remaining (off + 1) rest := by
  intro i
  have next := remaining (i + 1)
  rw [List.getElem?_cons_succ] at next
  rw [← next]
  congr 1
  omega

theorem Log.Remaining.read_nil (remaining : log.Remaining off []) :
    log.read off = .error .notFound := by
  have missing : log.recordAt off = none := remaining 0
  rw [Log.read_eq_recordAt, missing]

theorem Log.Remaining.read_cons {data : Bytes} {rest : List Bytes}
    (remaining : log.Remaining off (data :: rest)) : log.read off = .ok data :=
  (log.read_ok_iff off data).mpr (remaining 0)

theorem scanBefore_truncateAt (log : Log) (cutoff : Int64) (rest : List Bytes) :
    ∀ (fuel off : Nat) (scan : Scan), log.Remaining off rest → rest.length ≤ fuel →
      (scanBefore log cutoff fuel off scan).truncateAt =
        if (rest.takeWhile (headerBefore cutoff)).length = 0 then scan.truncateAt
        else off + (rest.takeWhile (headerBefore cutoff)).length := by
  induction rest with
  | nil =>
    intro fuel off scan remaining _
    cases fuel with
    | zero => rfl
    | succ fuel => simp [scanBefore, remaining.read_nil]
  | cons data rest ih =>
    intro fuel off scan remaining enough
    cases fuel with
    | zero => simp at enough
    | succ fuel =>
      simp only [scanBefore, remaining.read_cons]
      cases header : unmarshalHeader data with
      | error cause => simp [headerBefore, header]
      | ok hdr =>
        by_cases expired : cutoff ≤ hdr.timestamp
        · have passed : headerBefore cutoff data = false := by
            simp only [headerBefore, header, decide_eq_false_iff_not]
            exact Int64.not_lt.mpr expired
          simp [expired, passed]
        · have passed : headerBefore cutoff data = true := by
            simp only [headerBefore, header, decide_eq_true_eq]
            exact Int64.not_le.mp expired
          have tail := ih fuel (off + 1)
            ⟨off + 1, scan.deleted + 1, scan.deletedBytes + data.length⟩
            remaining.tail (by simpa using enough)
          simp only [expired, if_false, tail, List.takeWhile_cons, passed, if_true,
            List.length_cons]
          rw [if_neg (Nat.succ_ne_zero _)]
          split <;> omega

theorem bytesOf_nil : bytesOf [] = 0 := rfl

theorem bytesOf_cons (data : Bytes) (rest : List Bytes) :
    bytesOf (data :: rest) = data.length + bytesOf rest := by
  simp [bytesOf]

theorem totalSize_eq (log : Log) (rest : List Bytes) :
    ∀ fuel off total : Nat, log.Remaining off rest → rest.length ≤ fuel →
      totalSize log fuel off total = total + bytesOf rest := by
  induction rest with
  | nil =>
    intro fuel off total remaining _
    cases fuel with
    | zero => simp [totalSize, bytesOf]
    | succ fuel => simp [totalSize, remaining.read_nil, bytesOf]
  | cons data rest ih =>
    intro fuel off total remaining enough
    cases fuel with
    | zero => simp at enough
    | succ fuel =>
      simp only [totalSize, remaining.read_cons]
      rw [ih fuel (off + 1) _ remaining.tail (by simpa using enough), bytesOf_cons]
      omega

theorem scanOldest_eq (log : Log) (maxBytes : Int) (rest : List Bytes) :
    ∀ (fuel off : Nat) (scan : Scan), log.Remaining off rest → rest.length ≤ fuel →
      scanOldest log maxBytes fuel off (bytesOf rest) scan =
        ⟨if leadingExcess maxBytes rest = 0 then scan.truncateAt
          else off + leadingExcess maxBytes rest,
        scan.deleted + leadingExcess maxBytes rest,
        scan.deletedBytes + bytesOf (rest.take (leadingExcess maxBytes rest))⟩ := by
  induction rest with
  | nil =>
    intro fuel off scan remaining _
    cases fuel with
    | zero => rfl
    | succ fuel => simp [scanOldest, remaining.read_nil, leadingExcess, bytesOf_nil]
  | cons data rest ih =>
    intro fuel off scan remaining enough
    cases fuel with
    | zero => simp at enough
    | succ fuel =>
      by_cases fits : (bytesOf (data :: rest) : Int) ≤ maxBytes
      · simp [scanOldest, leadingExcess, fits, bytesOf_nil]
      · have remainder : (bytesOf (data :: rest) : Int) - data.length = bytesOf rest := by
          rw [bytesOf_cons]
          omega
        have tail := ih fuel (off + 1)
          ⟨off + 1, scan.deleted + 1, scan.deletedBytes + data.length⟩
          remaining.tail (by simpa using enough)
        have excess : leadingExcess maxBytes (data :: rest) =
            leadingExcess maxBytes rest + 1 := if_neg fits
        have removed := bytesOf_cons data (rest.take (leadingExcess maxBytes rest))
        simp only [scanOldest, remaining.read_cons, fits, if_false, remainder, tail, excess,
          List.take_succ_cons, removed, Scan.mk.injEq]
        rw [if_neg (Nat.succ_ne_zero _)]
        refine ⟨?_, by omega, by omega⟩
        split <;> omega

theorem leadingExcess_of_fits {maxBytes : Int} {records : List Bytes}
    (fits : (bytesOf records : Int) ≤ maxBytes) : leadingExcess maxBytes records = 0 := by
  cases records with
  | nil => rfl
  | cons data rest => rw [leadingExcess, if_pos fits]

namespace Partition

/-- Offsets are never handed out twice: the log ends before the next offset. -/
def Ahead (p : Partition) : Prop := p.log.nextIndex ≤ p.nextOffset

/-! ## What a retention call does -/

/-- A call that succeeds keeps exactly the records from its cut on, and a call
that fails changes nothing. -/
structure CutAt (p : Partition) (cut : Nat) (q : Partition) : Prop where
  batchCodec : q.batchCodec = p.batchCodec
  nextOffset : q.nextOffset = p.nextOffset
  firstIndex : q.log.firstIndex = max p.log.firstIndex cut
  nextIndex : q.log.nextIndex = p.log.nextIndex
  recordAt : ∀ index, q.log.recordAt index = if cut ≤ index then p.log.recordAt index else none

theorem cutAt_self (p : Partition) {cut : Nat} (early : cut ≤ p.log.firstIndex) :
    p.CutAt cut p := by
  refine ⟨rfl, rfl, (Nat.max_eq_left early).symm, rfl, ?_⟩
  intro index
  by_cases kept : cut ≤ index
  · rw [if_pos kept]
  · rw [if_neg kept, Log.recordAt, if_neg (by omega)]

variable {p q : Partition} {result : Nat × Nat}

theorem cutAt_truncateFront {cut : Nat} {log : Log} (truncated : p.log.truncateFront cut = .ok log) :
    p.CutAt cut { p with log := log } := by
  obtain ⟨start, -, first, next⟩ := Log.truncateFront_ok truncated
  exact ⟨rfl, rfl, first.trans (Nat.max_eq_right start).symm, next,
    Log.recordAt_truncateFront truncated⟩

theorem applyScan_cases (p : Partition) (scan : Scan) :
    (∃ cause, 0 < scan.truncateAt ∧ p.log.truncateFront scan.truncateAt = .error cause ∧
      p.applyScan scan = (.error cause, p)) ∨
    (scan.truncateAt = 0 ∧ p.applyScan scan = (.ok (scan.deleted, scan.deletedBytes), p)) ∨
    ∃ log, p.log.truncateFront scan.truncateAt = .ok log ∧
      p.applyScan scan = (.ok (scan.deleted, scan.deletedBytes), { p with log := log }) := by
  unfold applyScan
  by_cases found : 0 < scan.truncateAt
  · rw [if_pos found]
    cases p.log.truncateFront scan.truncateAt with
    | error cause => exact .inl ⟨cause, found, rfl, rfl⟩
    | ok log => exact .inr (.inr ⟨log, rfl, rfl⟩)
  · rw [if_neg found]
    exact .inr (.inl ⟨by omega, rfl⟩)

theorem applyScan_cutAt {scan : Scan} {count : Nat}
    (found : scan.truncateAt = if count = 0 then 0 else p.log.firstIndex + count)
    (success : p.applyScan scan = (.ok result, q)) : p.CutAt (p.log.firstIndex + count) q := by
  have positive := p.log.firstIndex_pos
  rcases p.applyScan_cases scan with
    ⟨cause, -, -, failed⟩ | ⟨nowhere, same⟩ | ⟨log, truncated, done⟩
  · rw [failed] at success
    cases success
  · rw [same] at success
    cases success
    apply p.cutAt_self
    by_cases none : count = 0
    · omega
    · rw [if_neg none] at found
      omega
  · rw [done] at success
    cases success
    by_cases none : count = 0
    · rw [if_pos none] at found
      have := (Log.truncateFront_ok truncated).1
      omega
    · rw [if_neg none] at found
      rw [← found]
      exact cutAt_truncateFront truncated

theorem firstIndex?_eq (p : Partition) :
    (p.log.entries = [] ∧ p.log.firstIndex? = 0) ∨
      (p.log.entries ≠ [] ∧ p.log.firstIndex? = p.log.firstIndex) := by
  have positive := p.log.firstIndex_pos
  unfold Log.firstIndex? Log.lastIndex
  by_cases empty : p.log.entries = []
  · have first := p.log.empty_first empty
    exact .inl ⟨empty, by simp [empty, first]⟩
  · have := List.length_pos_of_ne_nil empty
    exact .inr ⟨empty, by rw [if_neg (by omega)]⟩

theorem scan_fuel (ahead : p.Ahead) :
    p.log.entries.length ≤ p.nextOffset - p.log.firstIndex := by
  unfold Ahead Log.nextIndex at ahead
  omega

theorem cutAt_of_empty (empty : p.log.entries = []) (call : RetentionCall)
    (scans : ∀ offset, call ≠ .truncateFront offset) : p.CutAt (call.cut p) p := by
  apply p.cutAt_self
  cases call with
  | truncateFront offset => exact absurd rfl (scans offset)
  | truncateBefore cutoff => simp [RetentionCall.cut, empty]
  | truncateOldestUntilSize maxBytes => simp [RetentionCall.cut, empty, leadingExcess]

theorem truncateFront_cutAt {offset : Nat} (success : p.truncateFront offset = (.ok (), q)) :
    p.CutAt offset q := by
  unfold truncateFront at success
  split at success
  · cases success
    exact p.cutAt_self (by omega)
  · cases truncated : p.log.truncateFront offset with
    | error cause =>
      rw [truncated] at success
      cases success
    | ok log =>
      rw [truncated] at success
      cases success
      exact cutAt_truncateFront truncated

theorem truncateBefore_cutAt {cutoff : Int64} (ahead : p.Ahead)
    (success : p.truncateBefore cutoff = (.ok result, q)) :
    p.CutAt ((RetentionCall.truncateBefore cutoff).cut p) q := by
  unfold truncateBefore at success
  rcases p.firstIndex?_eq with ⟨empty, first⟩ | ⟨-, first⟩
  · rw [first] at success
    cases success
    exact cutAt_of_empty empty _ (by simp)
  · have positive := p.log.firstIndex_pos
    simp only [first] at success
    rw [if_neg (by omega)] at success
    exact applyScan_cutAt (scanBefore_truncateAt p.log cutoff p.log.entries _ _ ⟨0, 0, 0⟩
      p.log.remaining_all (scan_fuel ahead)) success

theorem truncateOldestUntilSize_eq (ahead : p.Ahead) (some : p.log.entries ≠ []) (maxBytes : Int) :
    p.truncateOldestUntilSize maxBytes = p.applyScan
      ⟨if leadingExcess maxBytes p.log.entries = 0 then 0
        else p.log.firstIndex + leadingExcess maxBytes p.log.entries,
      leadingExcess maxBytes p.log.entries,
      bytesOf (p.log.entries.take (leadingExcess maxBytes p.log.entries))⟩ := by
  have positive := p.log.firstIndex_pos
  have first : p.log.firstIndex? = p.log.firstIndex := by
    rcases p.firstIndex?_eq with ⟨empty, -⟩ | ⟨-, first⟩
    · exact absurd empty some
    · exact first
  have total := totalSize_eq p.log p.log.entries (p.nextOffset - p.log.firstIndex)
    p.log.firstIndex 0 p.log.remaining_all (scan_fuel ahead)
  have scanned := scanOldest_eq p.log maxBytes p.log.entries (p.nextOffset - p.log.firstIndex)
    p.log.firstIndex ⟨0, 0, 0⟩ p.log.remaining_all (scan_fuel ahead)
  simp only [Nat.zero_add] at total scanned
  unfold truncateOldestUntilSize
  simp only [first, total, scanned]
  rw [if_neg (by omega)]
  by_cases fits : (bytesOf p.log.entries : Int) ≤ maxBytes
  · rw [if_pos fits, leadingExcess_of_fits fits]
    rfl
  · rw [if_neg fits]

theorem truncateOldestUntilSize_cutAt {maxBytes : Int} (ahead : p.Ahead)
    (success : p.truncateOldestUntilSize maxBytes = (.ok result, q)) :
    p.CutAt ((RetentionCall.truncateOldestUntilSize maxBytes).cut p) q := by
  by_cases empty : p.log.entries = []
  · rcases p.firstIndex?_eq with ⟨-, first⟩ | ⟨some, -⟩
    · unfold truncateOldestUntilSize at success
      rw [first] at success
      cases success
      exact cutAt_of_empty empty _ (by simp)
    · exact absurd empty some
  · rw [truncateOldestUntilSize_eq ahead empty] at success
    exact applyScan_cutAt rfl success

theorem map_unit_ok {result : Except WalError (Nat × Nat)}
    (success : (result.map fun _ => ()) = .ok ()) : ∃ counts, result = .ok counts := by
  cases result with
  | error cause => cases success
  | ok counts => exact ⟨counts, rfl⟩

/-- Every successful retention call keeps exactly the records from its cut on. -/
theorem retention_cutAt (ahead : p.Ahead) {call : RetentionCall}
    (success : call.run p = (.ok (), q)) : p.CutAt (call.cut p) q := by
  cases call with
  | truncateFront offset => exact truncateFront_cutAt success
  | truncateBefore cutoff =>
    obtain ⟨outcome, rfl⟩ := Prod.mk.inj success
    obtain ⟨counts, done⟩ := map_unit_ok outcome
    exact truncateBefore_cutAt ahead (Prod.ext done rfl)
  | truncateOldestUntilSize maxBytes =>
    obtain ⟨outcome, rfl⟩ := Prod.mk.inj success
    obtain ⟨counts, done⟩ := map_unit_ok outcome
    exact truncateOldestUntilSize_cutAt ahead (Prod.ext done rfl)

theorem applyScan_succeeds {scan : Scan} {count : Nat}
    (found : scan.truncateAt = if count = 0 then 0 else p.log.firstIndex + count)
    (inside : p.log.firstIndex + count < p.log.nextIndex) :
    ∃ result q, p.applyScan scan = (.ok result, q) := by
  rcases p.applyScan_cases scan with
    ⟨cause, somewhere, refused, -⟩ | ⟨-, result⟩ | ⟨log, -, result⟩
  · rw [found] at refused somewhere
    split at somewhere
    · cases somewhere
    · rename_i some
      rw [if_neg some] at refused
      obtain ⟨log, accepted⟩ := Log.truncateFront_of_inside ⟨Nat.le_add_right _ _, inside⟩
      rw [accepted] at refused
      cases refused
  · exact ⟨_, _, result⟩
  · exact ⟨_, _, result⟩

theorem truncateBefore_succeeds {cutoff : Int64} (ahead : p.Ahead)
    (short : (p.log.entries.takeWhile (headerBefore cutoff)).length < p.log.entries.length) :
    ∃ counts q, p.truncateBefore cutoff = (.ok counts, q) := by
  have positive := p.log.firstIndex_pos
  rcases p.firstIndex?_eq with ⟨empty, -⟩ | ⟨-, first⟩
  · simp [empty] at short
  · unfold truncateBefore
    simp only [first]
    rw [if_neg (by omega)]
    exact applyScan_succeeds (scanBefore_truncateAt p.log cutoff p.log.entries _ _ ⟨0, 0, 0⟩
      p.log.remaining_all (scan_fuel ahead)) (Nat.add_lt_add_left short _)

theorem truncateOldestUntilSize_succeeds {maxBytes : Int} (ahead : p.Ahead)
    (short : leadingExcess maxBytes p.log.entries < p.log.entries.length) :
    ∃ counts q, p.truncateOldestUntilSize maxBytes = (.ok counts, q) := by
  have some : p.log.entries ≠ [] := by
    intro empty
    simp [empty] at short
  rw [truncateOldestUntilSize_eq ahead some]
  exact applyScan_succeeds rfl (Nat.add_lt_add_left short _)

theorem retention_succeeds (ahead : p.Ahead) {call : RetentionCall}
    (start : p.log.firstIndex ≤ call.cut p) (inside : call.cut p < p.log.nextIndex) :
    ∃ q, call.run p = (.ok (), q) := by
  have positive := p.log.firstIndex_pos
  cases call with
  | truncateFront offset =>
    change p.log.firstIndex ≤ offset at start
    change offset < p.log.nextIndex at inside
    obtain ⟨log, accepted⟩ := Log.truncateFront_of_inside ⟨start, inside⟩
    simp only [RetentionCall.run, truncateFront, accepted]
    rw [if_neg (by omega)]
    exact ⟨_, rfl⟩
  | truncateBefore cutoff =>
    obtain ⟨counts, q, success⟩ := truncateBefore_succeeds ahead (Nat.lt_of_add_lt_add_left inside)
    simp only [RetentionCall.run, success]
    exact ⟨q, rfl⟩
  | truncateOldestUntilSize maxBytes =>
    obtain ⟨counts, q, success⟩ :=
      truncateOldestUntilSize_succeeds ahead (Nat.lt_of_add_lt_add_left inside)
    simp only [RetentionCall.run, success]
    exact ⟨q, rfl⟩

/-- Either the log refuses the cut and nothing changes, or the call succeeds. -/
def Outcome {α : Type} (p : Partition) (result : Except WalError α × Partition) : Prop :=
  (∃ cause, result = (.error cause, p)) ∨ ∃ value q, result = (.ok value, q)

theorem applyScan_outcome (p : Partition) (scan : Scan) : p.Outcome (p.applyScan scan) := by
  rcases p.applyScan_cases scan with
    ⟨cause, -, -, result⟩ | ⟨-, result⟩ | ⟨log, -, result⟩
  · exact .inl ⟨cause, result⟩
  · exact .inr ⟨_, _, result⟩
  · exact .inr ⟨_, _, result⟩

theorem truncateFront_outcome (p : Partition) (offset : Nat) :
    p.Outcome (p.truncateFront offset) := by
  unfold truncateFront
  split
  · exact .inr ⟨_, _, rfl⟩
  · cases p.log.truncateFront offset with
    | error cause => exact .inl ⟨cause, rfl⟩
    | ok log => exact .inr ⟨_, _, rfl⟩

theorem truncateBefore_outcome (p : Partition) (cutoff : Int64) :
    p.Outcome (p.truncateBefore cutoff) := by
  unfold truncateBefore
  dsimp only
  split
  · exact .inr ⟨_, _, rfl⟩
  · exact p.applyScan_outcome _

theorem truncateOldestUntilSize_outcome (p : Partition) (maxBytes : Int) :
    p.Outcome (p.truncateOldestUntilSize maxBytes) := by
  unfold truncateOldestUntilSize
  dsimp only
  split
  · exact .inr ⟨_, _, rfl⟩
  · split
    · exact .inr ⟨_, _, rfl⟩
    · exact p.applyScan_outcome _

theorem Outcome.forget {result : Except WalError (Nat × Nat) × Partition}
    (outcome : p.Outcome result) : p.Outcome (result.1.map fun _ => (), result.2) := by
  rcases outcome with ⟨cause, rfl⟩ | ⟨value, q, rfl⟩
  · exact .inl ⟨cause, rfl⟩
  · exact .inr ⟨(), q, rfl⟩

theorem retention_outcome (p : Partition) (call : RetentionCall) : p.Outcome (call.run p) := by
  cases call with
  | truncateFront offset => exact p.truncateFront_outcome offset
  | truncateBefore cutoff => exact (p.truncateBefore_outcome cutoff).forget
  | truncateOldestUntilSize maxBytes => exact (p.truncateOldestUntilSize_outcome maxBytes).forget

end Partition

/-! ## Runs of appends and retention calls -/

inductive PartitionCall where
  | append (call : AppendCall)
  | retain (call : RetentionCall)

namespace Partition

def step (p : Partition) : PartitionCall → Partition
  | .append call => (call.run p).2
  | .retain call => (call.run p).2

def run (p : Partition) (calls : List PartitionCall) : Partition := calls.foldl step p

/-- A partition as the broker opens it: any log, any mode, with or without a
batch codec. -/
def opened (id : Int) (log : Log) (mode : ScheduleMode) (codec : Option Codec) : Partition :=
  { Partition.new id log mode with batchCodec := codec }

theorem ahead_opened (id : Int) (log : Log) (mode : ScheduleMode) (codec : Option Codec) :
    (opened id log mode codec).Ahead :=
  Nat.le_of_eq log.lastIndex_succ.symm

theorem ahead_append {p : Partition} (ahead : p.Ahead) (call : AppendCall) :
    (call.run p).2.Ahead := by
  unfold Ahead at ahead ⊢
  rcases call.run_after p with same | lost | ⟨batch, log, written, length, stored⟩
  · rw [same]
    exact ahead
  · rw [lost]
    exact Nat.le_add_right_of_le ahead
  · rw [stored]
    have next := Log.nextIndex_writeBatch written
    simp only [Partition.stored, advance]
    omega

theorem ahead_retain {p : Partition} (ahead : p.Ahead) (call : RetentionCall) :
    (call.run p).2.Ahead := by
  rcases p.retention_outcome call with ⟨cause, failed⟩ | ⟨value, q, success⟩
  · rw [failed]
    exact ahead
  · rw [success]
    have cut := retention_cutAt ahead success
    unfold Ahead at ahead ⊢
    rw [cut.nextIndex, cut.nextOffset]
    exact ahead

theorem ahead_run (calls : List PartitionCall) :
    ∀ p : Partition, p.Ahead → (p.run calls).Ahead := by
  induction calls with
  | nil => intro p ahead; exact ahead
  | cons call rest ih =>
    intro p ahead
    cases call with
    | append call => exact ih _ (ahead_append ahead call)
    | retain call => exact ih _ (ahead_retain ahead call)

/-! ## What stays readable -/

/-- Every kept offset reads as before. -/
def KeepsReads (p q : Partition) : Prop :=
  ∀ offset m, q.log.firstIndex ≤ offset → offset ≤ p.highWaterMark →
    p.read offset = .ok m → q.read offset = .ok m

/-- No readable record at or after `cut` is a redirect to one before it. -/
def NoRedirectAcross (p : Partition) (cut : Nat) : Prop :=
  ∀ offset data base m, cut ≤ offset → p.log.recordAt offset = some data →
    redirectTarget data = some base → p.read offset = .ok m → cut ≤ base

theorem keepsReads_of_noRedirectAcross {p q : Partition} {cut : Nat} (cutAt : p.CutAt cut q)
    (whole : p.NoRedirectAcross cut) : p.KeepsReads q := by
  intro offset m kept _ before
  have kept : cut ≤ offset := by
    have := cutAt.firstIndex
    omega
  rw [← before]
  apply read_congr cutAt.batchCodec
  · rw [cutAt.recordAt, if_pos kept]
  · intro data base stored pointed
    rw [cutAt.recordAt, if_pos (whole offset data base m kept stored pointed before)]

theorem noRedirectAcross_of_keepsReads {p q : Partition} {cut : Nat} (ahead : p.Ahead)
    (cutAt : p.CutAt cut q) (keeps : p.KeepsReads q) : p.NoRedirectAcross cut := by
  intro offset data base m kept stored pointed before
  have inside := Log.recordAt_bounds stored
  have below : offset ≤ p.highWaterMark := by
    unfold Ahead at ahead
    unfold highWaterMark
    split <;> omega
  have start : q.log.firstIndex ≤ offset := by
    have := cutAt.firstIndex
    omega
  have after := keeps offset m start below before
  by_contra dropped
  -- the redirect survives, its leader does not
  have redirect : q.log.recordAt offset = some data := by
    rw [cutAt.recordAt, if_pos kept, stored]
  have leader : q.log.recordAt base = none := by
    rw [cutAt.recordAt, if_neg dropped]
  rw [read_of_redirect redirect pointed, readFromBatch, Log.read_eq_recordAt, leader] at after
  cases after

/-- A retention call keeps the remaining messages readable exactly when its cut
does not separate a redirect from its leader. -/
theorem truncation_keeps_reads_iff (id : Int) (log : Log) (mode : ScheduleMode)
    (codec : Option Codec) (calls : List PartitionCall) (call : RetentionCall) (q : Partition)
    (success : call.run ((opened id log mode codec).run calls) = (.ok (), q)) :
    ((opened id log mode codec).run calls).KeepsReads q ↔
      ((opened id log mode codec).run calls).NoRedirectAcross
        (call.cut ((opened id log mode codec).run calls)) := by
  have ahead := ahead_run calls _ (ahead_opened id log mode codec)
  have cutAt := retention_cutAt ahead success
  exact ⟨noRedirectAcross_of_keepsReads ahead cutAt, keepsReads_of_noRedirectAcross cutAt⟩

/-- A fresh partition that has taken one compressed batch of two messages. -/
def freshPair : Partition :=
  (opened 0 Log.empty .fifo (some noopCodec)).run
    [.append (.compressed [sampleMessage 5 2000 118, sampleMessage 5 2000 119] noopCodec
      (steadyEnv 2001))]

theorem truncation_keeps_reads_iff_pair :
    let p := freshPair.run [.append (.plain [sampleMessage 1 3000 120] (steadyEnv 3001))]
    p.KeepsReads (p.truncateFront 3).2 ↔ p.NoRedirectAcross 3 :=
  truncation_keeps_reads_iff 0 Log.empty .fifo (some noopCodec)
    [.append (.compressed [sampleMessage 5 2000 118, sampleMessage 5 2000 119] noopCodec
      (steadyEnv 2001)), .append (.plain [sampleMessage 1 3000 120] (steadyEnv 3001))]
    (.truncateFront 3) _ (Prod.ext (by decide) rfl)

/-- Cutting a compressed batch of two behind its leader leaves a redirect to
nowhere: offset 2 is kept but no longer readable. -/
theorem truncateFront_strands_redirect :
    (freshPair.truncateFront 2).1 = .ok () ∧
    (freshPair.truncateFront 2).2.log.firstIndex = 2 ∧ freshPair.highWaterMark = 2 ∧
    freshPair.read 2 = .ok { (sampleMessage 5 2000 119).stamp 2001 with batchDecoded := true } ∧
    (freshPair.truncateFront 2).2.read 2 = .error (.walReadBatch 1 .notFound) ∧
    ¬ freshPair.KeepsReads (freshPair.truncateFront 2).2 := by
  have before : freshPair.read 2 =
      .ok { (sampleMessage 5 2000 119).stamp 2001 with batchDecoded := true } := by decide
  have after : (freshPair.truncateFront 2).2.read 2 = .error (.walReadBatch 1 .notFound) := by
    decide
  refine ⟨by decide, by decide, by decide, before, after, ?_⟩
  intro keeps
  have still := keeps 2 _ (by decide) (by decide) before
  rw [after] at still
  cases still

end Partition

end NyaQueue
