import NyaQueue.Message
import Mathlib.Data.List.TakeDrop

/-!
# The write-ahead log

The partition log is a third-party segmented log.  What the broker relies on
is modelled here: consecutively numbered records starting at `firstIndex`, a
batch write that stores all of its records or none and insists on the next
index, and a front truncation that keeps at least one record.  `disk` is the
outcome of the physical write.  Indices are 64-bit, so a log whose next index
would not fit accepts no further record.
-/

set_option autoImplicit false

namespace NyaQueue

inductive WalError where
  | notFound
  | outOfOrder
  | outOfRange
  | writeFailed
  deriving DecidableEq, Repr

structure Log where
  firstIndex : Nat
  entries : List Bytes
  firstIndex_pos : 1 ≤ firstIndex
  empty_first : entries = [] → firstIndex = 1
  next_fits : firstIndex + entries.length < 2 ^ 64

namespace Log

def empty : Log where
  firstIndex := 1
  entries := []
  firstIndex_pos := Nat.le_refl 1
  empty_first := fun _ => rfl
  next_fits := by decide

def lastIndex (log : Log) : Nat := log.firstIndex + log.entries.length - 1

/-- `FirstIndex()`: zero for a log without records. -/
def firstIndex? (log : Log) : Nat := if log.lastIndex = 0 then 0 else log.firstIndex

def read (log : Log) (index : Nat) : Except WalError Bytes :=
  if index = 0 ∨ index < log.firstIndex ∨ log.lastIndex < index then .error .notFound
  else .ok (log.entries.getD (index - log.firstIndex) [])

/-- The batch numbers its records consecutively from `next` on. -/
def InOrder (next : Nat) : List (Nat × Bytes) → Prop
  | [] => True
  | (index, _) :: rest => index = next ∧ InOrder (next + 1) rest

instance inOrderDecidable : ∀ (next : Nat) (batch : List (Nat × Bytes)),
    Decidable (InOrder next batch)
  | _, [] => isTrue trivial
  | next, (index, _) :: rest =>
    haveI := inOrderDecidable (next + 1) rest
    inferInstanceAs (Decidable (index = next ∧ InOrder (next + 1) rest))

def writeBatch (log : Log) (batch : List (Nat × Bytes)) (disk : Bool) : Except WalError Log :=
  if InOrder (log.lastIndex + 1) batch then
    if disk then
      if fits : log.firstIndex + (log.entries ++ batch.map Prod.snd).length < 2 ^ 64 then
        .ok {
          firstIndex := log.firstIndex
          entries := log.entries ++ batch.map Prod.snd
          firstIndex_pos := log.firstIndex_pos
          empty_first := fun none => log.empty_first (List.append_eq_nil_iff.mp none).1
          next_fits := fits }
      else .error .outOfRange
    else .error .writeFailed
  else .error .outOfOrder

def truncateFront (log : Log) (index : Nat) : Except WalError Log :=
  if range : log.firstIndex ≤ index ∧ index < log.firstIndex + log.entries.length then
    .ok {
      firstIndex := index
      entries := log.entries.drop (index - log.firstIndex)
      firstIndex_pos := Nat.le_trans log.firstIndex_pos range.1
      empty_first := fun none => by
        have := List.drop_eq_nil_iff.mp none
        omega
      next_fits := by
        have := log.next_fits
        rw [List.length_drop]
        omega }
  else .error .outOfRange

/-! ## Records by index -/

/-- The record stored under `index`, if there is one. -/
def recordAt (log : Log) (index : Nat) : Option Bytes :=
  if log.firstIndex ≤ index then log.entries[index - log.firstIndex]? else none

/-- The index the next record gets. -/
def nextIndex (log : Log) : Nat := log.firstIndex + log.entries.length

theorem lastIndex_succ (log : Log) : log.lastIndex + 1 = log.nextIndex := by
  have := log.firstIndex_pos
  simp only [lastIndex, nextIndex]
  omega

theorem recordAt_isSome_iff (log : Log) (index : Nat) :
    (∃ data, log.recordAt index = some data) ↔
      log.firstIndex ≤ index ∧ index < log.nextIndex := by
  unfold recordAt nextIndex
  by_cases start : log.firstIndex ≤ index
  · simp only [start, if_true, true_and, List.getElem?_eq_some_iff]
    constructor
    · rintro ⟨data, inside, -⟩
      omega
    · intro inside
      exact ⟨_, by omega, rfl⟩
  · simp [start]

variable {log log' : Log} {index : Nat} {batch : List (Nat × Bytes)} {disk : Bool}

theorem recordAt_bounds {data : Bytes} (stored : log.recordAt index = some data) :
    log.firstIndex ≤ index ∧ index < log.nextIndex :=
  (log.recordAt_isSome_iff index).mp ⟨data, stored⟩

theorem read_eq_recordAt (log : Log) (index : Nat) :
    log.read index =
      match log.recordAt index with
      | some data => .ok data
      | none => .error .notFound := by
  have positive := log.firstIndex_pos
  have last := log.lastIndex_succ
  by_cases inside : log.firstIndex ≤ index ∧ index < log.nextIndex
  · obtain ⟨data, stored⟩ := (log.recordAt_isSome_iff index).mpr inside
    have present : ¬ (index = 0 ∨ index < log.firstIndex ∨ log.lastIndex < index) := by omega
    rw [read, if_neg present, stored]
    rw [recordAt, if_pos inside.1] at stored
    simp [List.getD, stored]
  · have absent : index = 0 ∨ index < log.firstIndex ∨ log.lastIndex < index := by omega
    have missing : log.recordAt index = none := by
      cases found : log.recordAt index with
      | none => rfl
      | some data => exact absurd (recordAt_bounds found) inside
    rw [read, if_pos absent, missing]

theorem read_ok_iff (log : Log) (index : Nat) (data : Bytes) :
    log.read index = .ok data ↔ log.recordAt index = some data := by
  rw [read_eq_recordAt]
  cases log.recordAt index <;> simp

/-! ## What a successful write and a successful truncation do -/

theorem writeBatch_ok (written : log.writeBatch batch disk = .ok log') :
    disk = true ∧ InOrder log.nextIndex batch ∧ log'.firstIndex = log.firstIndex ∧
      log'.entries = log.entries ++ batch.map Prod.snd := by
  unfold writeBatch at written
  rw [lastIndex_succ] at written
  split at written
  · rename_i ordered
    split at written
    · rename_i healthy
      split at written
      · cases written
        exact ⟨healthy, ordered, rfl, rfl⟩
      · cases written
    · cases written
  · cases written

theorem writeBatch_healthy (ordered : InOrder log.nextIndex batch)
    (room : log.nextIndex + batch.length < 2 ^ 64) :
    ∃ log', log.writeBatch batch true = .ok log' := by
  have fits : log.firstIndex + (log.entries ++ batch.map Prod.snd).length < 2 ^ 64 := by
    rw [List.length_append, List.length_map]
    unfold nextIndex at room
    omega
  unfold writeBatch
  rw [lastIndex_succ, if_pos ordered, if_pos rfl, dif_pos fits]
  exact ⟨_, rfl⟩

theorem nextIndex_writeBatch (written : log.writeBatch batch disk = .ok log') :
    log'.nextIndex = log.nextIndex + batch.length := by
  obtain ⟨-, -, first, entries⟩ := writeBatch_ok written
  simp only [nextIndex, first, entries, List.length_append, List.length_map]
  omega

theorem recordAt_writeBatch_old (written : log.writeBatch batch disk = .ok log')
    (old : index < log.nextIndex) :
    log'.recordAt index = log.recordAt index := by
  obtain ⟨-, -, first, entries⟩ := writeBatch_ok written
  unfold recordAt nextIndex at *
  rw [first, entries]
  by_cases start : log.firstIndex ≤ index
  · rw [if_pos start, if_pos start, List.getElem?_append_left (by omega)]
  · rw [if_neg start, if_neg start]

theorem recordAt_writeBatch_new (written : log.writeBatch batch disk = .ok log') (i : Nat) :
    log'.recordAt (log.nextIndex + i) = (batch.map Prod.snd)[i]? := by
  obtain ⟨-, -, first, entries⟩ := writeBatch_ok written
  unfold recordAt nextIndex
  rw [first, entries, if_pos (by omega), List.getElem?_append_right (by omega)]
  congr 1
  omega

theorem truncateFront_ok (truncated : log.truncateFront index = .ok log') :
    log.firstIndex ≤ index ∧ index < log.nextIndex ∧ log'.firstIndex = index ∧
      log'.nextIndex = log.nextIndex := by
  unfold truncateFront at truncated
  split at truncated
  · rename_i range
    cases truncated
    refine ⟨range.1, range.2, rfl, ?_⟩
    simp only [nextIndex, List.length_drop]
    omega
  · cases truncated

theorem truncateFront_of_inside (inside : log.firstIndex ≤ index ∧ index < log.nextIndex) :
    ∃ log', log.truncateFront index = .ok log' := by
  unfold nextIndex at inside
  unfold truncateFront
  rw [dif_pos inside]
  exact ⟨_, rfl⟩

theorem recordAt_truncateFront {cut : Nat} (truncated : log.truncateFront cut = .ok log')
    (index : Nat) :
    log'.recordAt index = if cut ≤ index then log.recordAt index else none := by
  unfold truncateFront at truncated
  split at truncated
  · rename_i range
    cases truncated
    unfold recordAt
    dsimp only
    by_cases kept : cut ≤ index
    · rw [if_pos kept, if_pos kept, if_pos (by omega), List.getElem?_drop]
      congr 1
      omega
    · rw [if_neg kept, if_neg kept]
  · cases truncated

end Log

/-! ## Offsets as 64-bit integers -/

/-- `int64(offset)` for an unsigned offset. -/
def int64OfOffset (offset : Nat) : Int64 := (UInt64.ofNat offset).toInt64

/-- `uint64(value)` for a signed 64-bit value. -/
def offsetOfInt64 (value : Int64) : Nat := value.toUInt64.toNat

theorem offsetOfInt64_int64OfOffset {offset : Nat} (fits : offset < 2 ^ 64) :
    offsetOfInt64 (int64OfOffset offset) = offset := by
  have same : (UInt64.ofNat offset).toInt64.toUInt64 = UInt64.ofNat offset := rfl
  rw [offsetOfInt64, int64OfOffset, same, UInt64.toNat_ofNat', Nat.mod_eq_of_lt fits]

theorem offsetOfInt64_of_nonneg {a : Int64} (nonneg : 0 ≤ a.toInt) :
    (offsetOfInt64 a : Int) = a.toInt := by
  have same : offsetOfInt64 a = a.toBitVec.toNat := rfl
  have signed : a.toInt = a.toBitVec.toInt := rfl
  have small := a.toBitVec.isLt
  rw [same]
  rw [signed, BitVec.toInt_eq_toNat_cond] at nonneg ⊢
  split at nonneg <;> split <;> omega

theorem int64OfOffset_toInt {offset : Nat} (small : offset < 2 ^ 63) :
    (int64OfOffset offset).toInt = offset := by
  have signed : (int64OfOffset offset).toInt = (BitVec.ofNat 64 offset).toInt := rfl
  rw [signed, BitVec.toInt_eq_toNat_cond, BitVec.toNat_ofNat, Nat.mod_eq_of_lt (by omega)]
  split <;> omega

theorem offsetOfInt64_of_neg {a : Int64} (negative : a.toInt < 0) : 2 ^ 63 ≤ offsetOfInt64 a := by
  have same : offsetOfInt64 a = a.toBitVec.toNat := rfl
  have signed : a.toInt = a.toBitVec.toInt := rfl
  have small := a.toBitVec.isLt
  rw [same]
  rw [signed, BitVec.toInt_eq_toNat_cond] at negative
  split at negative <;> omega

theorem offsetOfInt64_le {a b : Int64} (positive : 1 < a) (le : a ≤ b) :
    offsetOfInt64 a ≤ offsetOfInt64 b := by
  have low : 1 < a.toInt := Int64.lt_iff_toInt_lt.mp positive
  have order : a.toInt ≤ b.toInt := Int64.le_iff_toInt_le.mp le
  have left : (offsetOfInt64 a : Int) = a.toInt := offsetOfInt64_of_nonneg (by omega)
  have right : (offsetOfInt64 b : Int) = b.toInt := offsetOfInt64_of_nonneg (by omega)
  omega

end NyaQueue
