import NyaQueue.Retention
import Mathlib.Algebra.Order.BigOperators.Group.List

/-!
# Retention by size

`TruncateOldestUntilSize` removes the shortest prefix that brings the log down
to the limit, and reports what it removed.  The log never lets its last record
go, so the call fails exactly when that record alone is above the limit.
-/

set_option autoImplicit false

namespace NyaQueue

/-! ## The shortest prefix -/

theorem leadingExcess_enough {maxBytes : Int} (limit : 0 ≤ maxBytes) (records : List Bytes) :
    (bytesOf (records.drop (leadingExcess maxBytes records)) : Int) ≤ maxBytes := by
  induction records with
  | nil => exact limit
  | cons data rest ih =>
    by_cases fits : (bytesOf (data :: rest) : Int) ≤ maxBytes
    · rw [leadingExcess_of_fits fits]
      exact fits
    · rw [leadingExcess, if_neg fits]
      exact ih

theorem leadingExcess_least (maxBytes : Int) (records : List Bytes) :
    ∀ j < leadingExcess maxBytes records, maxBytes < (bytesOf (records.drop j) : Int) := by
  induction records with
  | nil => intro j early; exact absurd early (Nat.not_lt_zero j)
  | cons data rest ih =>
    intro j early
    by_cases fits : (bytesOf (data :: rest) : Int) ≤ maxBytes
    · rw [leadingExcess_of_fits fits] at early
      exact absurd early (Nat.not_lt_zero j)
    · rw [leadingExcess, if_neg fits] at early
      cases j with
      | zero => exact lt_of_not_ge fits
      | succ j => exact ih j (Nat.lt_of_succ_lt_succ early)

theorem leadingExcess_le (maxBytes : Int) (records : List Bytes) :
    leadingExcess maxBytes records ≤ records.length := by
  induction records with
  | nil => exact Nat.le_refl 0
  | cons data rest ih =>
    rw [leadingExcess]
    split
    · exact Nat.zero_le _
    · exact Nat.succ_le_succ ih

theorem leadingExcess_lt_iff {maxBytes : Int} (limit : 0 ≤ maxBytes) {records : List Bytes}
    (some : records ≠ []) :
    leadingExcess maxBytes records < records.length ↔
      ((records.getLast some).length : Int) ≤ maxBytes := by
  have last : records.drop (records.length - 1) = [records.getLast some] :=
    List.drop_length_sub_one some
  have newest : bytesOf (records.drop (records.length - 1)) = (records.getLast some).length := by
    rw [last]
    simp [bytesOf]
  have positive := List.length_pos_of_ne_nil some
  rw [← newest]
  constructor
  · intro short
    -- the last record is part of what is left, and that fits
    have enough := leadingExcess_enough limit records
    have suffix : (records.drop (records.length - 1)).Sublist
        (records.drop (leadingExcess maxBytes records)) :=
      List.drop_sublist_drop_left records (by omega)
    have smaller : bytesOf (records.drop (records.length - 1)) ≤
        bytesOf (records.drop (leadingExcess maxBytes records)) :=
      (suffix.map List.length).sum_le_sum (by simp)
    omega
  · intro fits
    by_contra long
    have all : leadingExcess maxBytes records = records.length :=
      Nat.le_antisymm (leadingExcess_le maxBytes records) (Nat.le_of_not_lt long)
    have exceeds := leadingExcess_least maxBytes records (records.length - 1) (by omega)
    omega

theorem Log.truncateFront_drop {log : Log} {count : Nat} (inside : count < log.entries.length) :
    ∃ log', log.truncateFront (log.firstIndex + count) = .ok log' ∧
      log'.firstIndex = log.firstIndex + count ∧ log'.entries = log.entries.drop count := by
  have range : log.firstIndex ≤ log.firstIndex + count ∧
      log.firstIndex + count < log.firstIndex + log.entries.length :=
    ⟨Nat.le_add_right _ _, Nat.add_lt_add_left inside _⟩
  unfold truncateFront
  rw [dif_pos range]
  exact ⟨_, rfl, rfl, congrArg log.entries.drop (Nat.add_sub_cancel_left ..)⟩

theorem Log.truncateFront_end (log : Log) :
    log.truncateFront (log.firstIndex + log.entries.length) = .error .outOfRange :=
  dif_neg fun range => absurd range.2 (Nat.lt_irrefl _)

namespace Partition

variable {p : Partition} {maxBytes : Int}

/-- `q` is `p` without its first `count` records, the fewest that bring the
rest down to `maxBytes`. -/
structure RemovesPrefix (p : Partition) (maxBytes : Int) (count : Nat) (q : Partition) : Prop where
  enough : (bytesOf (p.log.entries.drop count) : Int) ≤ maxBytes
  least : ∀ j < count, maxBytes < (bytesOf (p.log.entries.drop j) : Int)
  entries : q.log.entries = p.log.entries.drop count
  firstIndex : q.log.firstIndex = p.log.firstIndex + count
  others : q = { p with log := q.log }

theorem truncateOldestUntilSize_over (ahead : p.Ahead) (some : p.log.entries ≠ [])
    (limit : 0 < maxBytes) (exceeds : maxBytes < ((p.log.entries.getLast some).length : Int)) :
    p.truncateOldestUntilSize maxBytes = (.error .outOfRange, p) := by
  have positive := p.log.firstIndex_pos
  have length := List.length_pos_of_ne_nil some
  have all : leadingExcess maxBytes p.log.entries = p.log.entries.length := by
    refine Nat.le_antisymm (leadingExcess_le ..) (Nat.le_of_not_lt fun short => ?_)
    have fits := (leadingExcess_lt_iff (le_of_lt limit) some).mp short
    omega
  rw [truncateOldestUntilSize_eq ahead some, all, if_neg (by omega), applyScan,
    if_pos (by dsimp only; omega), Log.truncateFront_end]

theorem truncateOldestUntilSize_removes (ahead : p.Ahead) (some : p.log.entries ≠ [])
    (limit : 0 < maxBytes) (fits : ((p.log.entries.getLast some).length : Int) ≤ maxBytes) :
    ∃ count q, p.truncateOldestUntilSize maxBytes =
        (.ok (count, bytesOf (p.log.entries.take count)), q) ∧
      p.RemovesPrefix maxBytes count q := by
  have positive := p.log.firstIndex_pos
  have short := (leadingExcess_lt_iff (le_of_lt limit) some).mpr fits
  have enough := leadingExcess_enough (le_of_lt limit) p.log.entries
  have least := leadingExcess_least maxBytes p.log.entries
  rw [truncateOldestUntilSize_eq ahead some]
  generalize leadingExcess maxBytes p.log.entries = count at short enough least
  by_cases nothing : count = 0
  · subst nothing
    exact ⟨0, p, rfl, enough, least, rfl, rfl, rfl⟩
  · obtain ⟨log, truncated, first, entries⟩ := Log.truncateFront_drop short
    refine ⟨count, { p with log := log }, ?_, enough, least, entries, first, rfl⟩
    rw [if_neg nothing, applyScan, if_pos (by dsimp only; omega), truncated]

/-- Size retention on every partition that a broker can hold: an error exactly
when the newest record alone is above the limit, and then nothing changes;
otherwise the shortest prefix goes and is reported exactly. -/
theorem size_retention_removes_least :
    (∀ (id : Int) (log : Log) (mode : ScheduleMode) (codec : Option Codec)
      (calls : List PartitionCall), ((opened id log mode codec).run calls).Ahead) ∧
    ∀ (p : Partition), p.Ahead → ∀ (some : p.log.entries ≠ []) (maxBytes : Int), 0 < maxBytes →
      ((∃ cause, (p.truncateOldestUntilSize maxBytes).1 = .error cause) ↔
        maxBytes < ((p.log.entries.getLast some).length : Int)) ∧
      ((∃ cause, (p.truncateOldestUntilSize maxBytes).1 = .error cause) →
        (p.truncateOldestUntilSize maxBytes).2 = p) ∧
      (((p.log.entries.getLast some).length : Int) ≤ maxBytes →
        ∃ count q, p.truncateOldestUntilSize maxBytes =
            (.ok (count, bytesOf (p.log.entries.take count)), q) ∧
          p.RemovesPrefix maxBytes count q) := by
  refine ⟨fun id log mode codec calls => ahead_run calls _ (ahead_opened id log mode codec), ?_⟩
  intro p ahead some maxBytes limit
  have failed : (∃ cause, (p.truncateOldestUntilSize maxBytes).1 = .error cause) ↔
      maxBytes < ((p.log.entries.getLast some).length : Int) := by
    constructor
    · rintro ⟨cause, error⟩
      by_contra fits
      obtain ⟨count, q, done, -⟩ :=
        truncateOldestUntilSize_removes ahead some limit (le_of_not_gt fits)
      rw [done] at error
      cases error
    · intro exceeds
      exact ⟨.outOfRange, by rw [truncateOldestUntilSize_over ahead some limit exceeds]⟩
  refine ⟨failed, ?_, truncateOldestUntilSize_removes ahead some limit⟩
  intro error
  rw [truncateOldestUntilSize_over ahead some limit (failed.mp error)]

def threeRecords : Log where
  firstIndex := 4
  entries := [[1, 2, 3], [4], [5, 6]]
  firstIndex_pos := by decide
  empty_first := fun none => absurd none (List.cons_ne_nil _ _)
  next_fits := by decide

/-- With three bytes allowed one record goes; with one byte allowed the newest
record alone is too large. -/
theorem size_retention_removes_least_three :
    (∃ count q, (opened 0 threeRecords .fifo none).truncateOldestUntilSize 3 =
        (.ok (count, bytesOf (threeRecords.entries.take count)), q) ∧
      (opened 0 threeRecords .fifo none).RemovesPrefix 3 count q) ∧
    (∃ cause, ((opened 0 threeRecords .fifo none).truncateOldestUntilSize 1).1 = .error cause) ∧
    ((opened 0 threeRecords .fifo none).truncateOldestUntilSize 3).1.toOption = some (1, 3) :=
  ⟨(size_retention_removes_least.2 (opened 0 threeRecords .fifo none)
      (size_retention_removes_least.1 0 threeRecords .fifo none []) (by decide) 3
      (by decide)).2.2 (by decide),
    (size_retention_removes_least.2 (opened 0 threeRecords .fifo none)
      (size_retention_removes_least.1 0 threeRecords .fifo none []) (by decide) 1
      (by decide)).1.mpr (by decide),
    by decide +kernel⟩

end Partition

end NyaQueue
