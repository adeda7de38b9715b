import NyaQueue.Retention
import NyaQueue.Lib.Runs

/-!
# Failed log writes

Both append routines take their offsets before the write and never give them
back.  One failed write is therefore enough to leave a gap between the log and
the next offset, which the log refuses from then on.
-/

set_option autoImplicit false

namespace NyaQueue

namespace Partition

/-- What callers may expect of an open partition: the next offset is the one
the log accepts, the high-water mark names a stored record, and a healthy disk
is all an append needs. -/
structure Usable (p : Partition) : Prop where
  next : p.nextOffset = p.log.lastIndex + 1
  highWater : 0 < p.highWaterMark → ∃ data, p.log.recordAt p.highWaterMark = some data
  appendable : ∀ (call : AppendCall) (batch : List (Nat × Bytes)), call.msgs ≠ [] →
    call.batch p = .ok batch → call.env.disk = true →
    p.nextOffset + call.msgs.length < 2 ^ 64 → ∃ offsets, (call.run p).1 = .ok offsets

theorem highWater_of_next {p : Partition} (next : p.nextOffset = p.log.nextIndex)
    (positive : 0 < p.highWaterMark) : ∃ data, p.log.recordAt p.highWaterMark = some data := by
  rw [Log.recordAt_isSome_iff]
  have start := p.log.firstIndex_pos
  have empty := p.log.empty_first
  unfold highWaterMark at positive ⊢
  unfold Log.nextIndex at next ⊢
  rw [if_neg (by omega)] at positive ⊢
  cases entries : p.log.entries with
  | nil =>
    rw [entries] at next
    have first := empty entries
    simp at next
    omega
  | cons data rest =>
    rw [entries] at next
    simp only [List.length_cons] at next ⊢
    omega

theorem appendable_of_next {p : Partition} (next : p.nextOffset = p.log.nextIndex)
    {call : AppendCall} {batch : List (Nat × Bytes)} (nonempty : call.msgs ≠ [])
    (assembled : call.batch p = .ok batch) (healthy : call.env.disk = true)
    (room : p.nextOffset + call.msgs.length < 2 ^ 64) :
    ∃ offsets, (call.run p).1 = .ok offsets := by
  rcases call.run_cases p nonempty with ⟨error, failed, -⟩ | ⟨batch', same, length, offsets, outcome⟩
  · rw [assembled] at failed
    cases failed
  · rcases outcome with ⟨cause, error, refused, -⟩ | ⟨log, -, success⟩
    · have ordered : Log.InOrder p.log.nextIndex batch' := by
        rw [Log.inOrder_iff, offsets, length, next]
      obtain ⟨log, accepted⟩ := Log.writeBatch_healthy ordered (by rw [length, ← next]; exact room)
      rw [healthy, accepted] at refused
      cases refused
    · rw [success]
      exact ⟨_, rfl⟩

theorem usable_iff (p : Partition) : p.Usable ↔ p.nextOffset = p.log.nextIndex := by
  rw [← Log.lastIndex_succ]
  constructor
  · intro usable
    exact usable.next
  · intro next
    refine ⟨next, ?_, ?_⟩
    · exact highWater_of_next (next.trans p.log.lastIndex_succ)
    · intro call batch nonempty assembled healthy room
      exact appendable_of_next (next.trans p.log.lastIndex_succ) nonempty assembled healthy room

end Partition

/-- The call writes to the log and the log reports an error. -/
def PartitionCall.WriteFails (p : Partition) : PartitionCall → Prop
  | .append call => call.msgs ≠ [] ∧ ∃ batch cause, call.batch p = .ok batch ∧
      p.log.writeBatch batch call.env.disk = .error cause
  | .retain _ => False

namespace Partition

theorem usable_step_iff {p : Partition} (usable : p.Usable) (call : PartitionCall) :
    (p.step call).Usable ↔ ¬ call.WriteFails p := by
  rw [usable_iff] at usable
  cases call with
  | retain call =>
    simp only [PartitionCall.WriteFails, not_false_eq_true, iff_true, usable_iff, step]
    rcases p.retention_outcome call with ⟨cause, failed⟩ | ⟨value, q, success⟩
    · rw [failed]
      exact usable
    · rw [success]
      have cutAt := retention_cutAt (Nat.le_of_eq usable.symm) success
      rw [cutAt.nextOffset, cutAt.nextIndex, usable]
  | append call =>
    simp only [PartitionCall.WriteFails, usable_iff, step]
    by_cases empty : call.msgs = []
    · simp [call.run_empty p empty, empty, usable]
    · have positive := List.length_pos_of_ne_nil empty
      rcases call.run_cases p empty with
        ⟨error, failed, result⟩ | ⟨batch, assembled, length, -, outcome⟩
      · simp [result, failed, usable]
      · rcases outcome with ⟨cause, error, refused, result⟩ | ⟨log, written, result⟩
        · -- the offsets are gone although nothing was stored
          have broken : ¬ (p.advance call.msgs.length).nextOffset =
              (p.advance call.msgs.length).log.nextIndex := by
            simp only [advance]
            omega
          simp only [result, broken, false_iff, not_not]
          exact ⟨empty, batch, cause, assembled, refused⟩
        · have next := Log.nextIndex_writeBatch written
          have kept : (p.stored log call.msgs call.env.indexTime).nextOffset =
              (p.stored log call.msgs call.env.indexTime).log.nextIndex := by
            simp only [stored, advance]
            omega
          simp only [result, kept, true_iff]
          rintro ⟨-, batch', cause, assembled', refused⟩
          rw [assembled] at assembled'
          cases assembled'
          rw [written] at refused
          cases refused

/-- A run leaves the partition usable in all of its states exactly when none of
its log writes fails. -/
theorem run_usable_iff_writes_succeed (id : Int) (log : Log) (mode : ScheduleMode)
    (codec : Option Codec) (calls : List PartitionCall) :
    (∀ state ∈ Runs.states step (opened id log mode codec) calls, state.Usable) ↔
      Runs.Guarded step (fun p call => ¬ call.WriteFails p) (opened id log mode codec) calls := by
  have usable : (opened id log mode codec).Usable := by
    rw [usable_iff]
    exact log.lastIndex_succ
  exact Runs.states_iff_guarded (fun _ call holds => usable_step_iff holds call) calls _ usable

/-- One failed write on a fresh partition: the high-water mark names a record
that does not exist, and the next append is refused on a healthy disk. -/
theorem failed_write_blocks_partition :
    let failing := PartitionCall.append (.plain [sampleMessage 5 7 118]
      { steadyEnv 9 with disk := false })
    let p := freshFifo.step failing
    p.nextOffset = 2 ∧ p.log.lastIndex + 1 = 1 ∧ p.highWaterMark = 1 ∧
    p.log.recordAt 1 = none ∧
    (p.appendBatch [sampleMessage 5 8 119] (steadyEnv 10)).1 =
      .error (.walWriteBatch .outOfOrder) ∧
    p ∈ Runs.states step freshFifo [failing] ∧ ¬ p.Usable := by
  intro failing p
  refine ⟨by decide, by decide, by decide, by decide, by decide, ?_, ?_⟩
  · exact Runs.final_mem_states step [failing] freshFifo
  · intro usable
    have next := usable.next
    revert next
    decide

end Partition

end NyaQueue
