import NyaQueue.PriorityDelivery

/-!
# Priority partitions across restarts

`NewPartition` opens the log of a partition where it ends and gives a partition of a
priority mode an empty index; nothing that the broker runs calls `Rebuild`.  Runs of
appends, retention calls, `Next` of either priority scheduler, and restarts.
-/

set_option autoImplicit false

namespace NyaQueue

structure PriorityLife where
  partition : Partition
  /-- the next offset when the partition was opened last -/
  openedAt : Nat
  /-- the offsets that `Next` has returned since then -/
  returned : List Nat

inductive LifeEvent where
  | append (call : AppendCall)
  | retain (call : RetentionCall)
  | strictNext
  | dqnNext (threshold : Int)
  | restart (codec : Option Codec)

namespace PriorityLife

def opened (id : Int) (log : Log) (mode : ScheduleMode) (codec : Option Codec) :
    PriorityLife where
  partition := Partition.opened id log mode codec
  openedAt := log.nextIndex
  returned := []

def take (s : PriorityLife) (next : NextResult × Partition) : PriorityLife :=
  { s with partition := next.2, returned := s.returned ++ returnedBy next.1 }

def step (s : PriorityLife) : LifeEvent → PriorityLife
  | .append call => { s with partition := (call.run s.partition).2 }
  | .retain call => { s with partition := (call.run s.partition).2 }
  | .strictNext => s.take s.partition.strictPriorityNext
  | .dqnNext threshold => s.take (s.partition.dqnNext threshold)
  | .restart codec => opened s.partition.id s.partition.log s.partition.scheduleMode codec

/-- The offset was given to a message since the last restart. -/
def New (s : PriorityLife) (offset : Nat) : Prop :=
  s.openedAt ≤ offset ∧ offset < s.partition.nextOffset

structure Inv (s : PriorityLife) : Prop where
  grown : s.openedAt ≤ s.partition.nextOffset
  pending : ∀ offset ∈ s.partition.pendingOffsets, s.New offset
  returned : ∀ offset ∈ s.returned, s.New offset

theorem inv_opened (id : Int) (log : Log) (mode : ScheduleMode) (codec : Option Codec) :
    Inv (opened id log mode codec) := by
  refine ⟨Nat.le_of_eq log.lastIndex_succ.symm, ?_, nofun⟩
  have empty : (opened id log mode codec).partition.pendingOffsets = 0 := by
    cases mode <;> simp [opened, Partition.opened, Partition.new, Partition.pendingOffsets,
      PriorityIndex.newPriorityIndex_pending]
  intro offset member
  rw [empty] at member
  exact absurd member (Multiset.notMem_zero offset)

variable {s : PriorityLife} {p : Partition}

/-- What is in the index afterwards was there before or has been appended. -/
theorem Inv.of_partition (inv : Inv s) (later : s.partition.nextOffset ≤ p.nextOffset)
    (pending : ∀ offset ∈ p.pendingOffsets, offset ∈ s.partition.pendingOffsets ∨
      s.partition.nextOffset ≤ offset ∧ offset < p.nextOffset) :
    Inv { s with partition := p } := by
  have grown := inv.grown
  have still : ∀ offset, s.New offset → New { s with partition := p } offset :=
    fun offset new => ⟨new.1, Nat.lt_of_lt_of_le new.2 later⟩
  refine ⟨Nat.le_trans grown later, ?_, fun offset member => still offset (inv.returned _ member)⟩
  intro offset member
  rcases pending offset member with old | ⟨low, high⟩
  · exact still offset (inv.pending offset old)
  · exact ⟨Nat.le_trans grown low, high⟩

theorem pendingOffsets_stored {log : Log} {call : AppendCall} {batch : List (Nat × Bytes)}
    (nonempty : call.msgs ≠ [])
    (offsets : batch.map Prod.fst = List.range' p.nextOffset call.msgs.length)
    (written : p.log.writeBatch batch call.env.disk = .ok log) (offset : Nat)
    (member : offset ∈ (p.stored log call.msgs call.env.indexTime).pendingOffsets) :
    offset ∈ p.pendingOffsets ∨
      p.nextOffset ≤ offset ∧ offset < p.nextOffset + call.msgs.length := by
  cases indexed : p.priorityIndex with
  | none =>
    rw [Partition.pendingOffsets, Partition.stored, indexed] at member
    exact absurd member (Multiset.notMem_zero offset)
  | some pi =>
    have total := Delivery.pending_of_written indexed nonempty offsets written
    have inside : offset ∈ p.pendingOffsets +
        (List.range' p.nextOffset call.msgs.length : Multiset Nat) := by
      rw [← total]
      exact Multiset.mem_add.mpr (.inl member)
    refine (Multiset.mem_add.mp inside).imp_right fun new => ?_
    exact List.mem_range'_1.mp new

theorem Inv.append (inv : Inv s) (call : AppendCall) :
    Inv { s with partition := (call.run s.partition).2 } := by
  by_cases empty : call.msgs = []
  · rw [call.run_empty _ empty]
    exact inv
  · rcases call.run_cases s.partition empty with
      ⟨error, -, failed⟩ | ⟨batch, -, -, offsets, ⟨cause, error, -, failed⟩ | ⟨log, written, stored⟩⟩
    · rw [failed]
      exact inv
    · rw [failed]
      exact inv.of_partition (Nat.le_add_right ..) fun _ member => .inl member
    · rw [stored]
      exact inv.of_partition (Nat.le_add_right ..) (pendingOffsets_stored empty offsets written)

theorem retention_index (p : Partition) (call : RetentionCall) :
    (call.run p).2.priorityIndex = p.priorityIndex ∧
      (call.run p).2.nextOffset = p.nextOffset := by
  cases call <;>
    simp only [RetentionCall.run, Partition.truncateFront, Partition.truncateBefore,
      Partition.truncateOldestUntilSize, Partition.applyScan] <;>
    (repeat' split) <;> exact ⟨rfl, rfl⟩

/-- `Next` hands out an offset of the index, or none, and puts none there. -/
theorem popNext_pending (p : Partition)
    {pop : PriorityIndex → PriorityIndex × Option PendingEntry}
    (pops : ∀ pi : PriorityIndex, pi.TakesFront (pop pi)) :
    (p.popNext pop).2.nextOffset = p.nextOffset ∧
      (∀ offset ∈ (p.popNext pop).2.pendingOffsets, offset ∈ p.pendingOffsets) ∧
      ∀ offset ∈ returnedBy (p.popNext pop).1, offset ∈ p.pendingOffsets := by
  cases indexed : p.priorityIndex with
  | none =>
    have nothing : p.popNext pop = (.error (.noPriorityIndex p.id), p) := by
      rw [Partition.popNext, indexed]
    rw [nothing]
    exact ⟨rfl, fun _ member => member, List.forall_mem_nil _⟩
  | some pi =>
    simp only [Partition.pendingOffsets, indexed]
    rcases Partition.popNext_cases indexed pop with
      ⟨nothing, result⟩ | ⟨entry, popped, outcome⟩
    · rw [result]
      dsimp only
      rw [(pops pi).none nothing]
      exact ⟨rfl, fun _ member => member, List.forall_mem_nil _⟩
    · have taken := (pops pi).pending popped
      rw [← taken, Multiset.map_add]
      have rest : ∀ offset ∈ (pop pi).1.pending.map fun e => offsetOfInt64 e.walOffset,
          offset ∈ (pop pi).1.pending.map (fun e => offsetOfInt64 e.walOffset) +
            ({entry} : Multiset PendingEntry).map fun e => offsetOfInt64 e.walOffset :=
        fun offset member => Multiset.mem_add.mpr (.inl member)
      rcases outcome with ⟨cause, -, result⟩ | ⟨msg, -, result⟩ <;> rw [result]
      · exact ⟨rfl, rest, List.forall_mem_nil _⟩
      · refine ⟨rfl, rest, fun offset member => ?_⟩
        rw [List.mem_singleton.mp member]
        exact Multiset.mem_add.mpr (.inr (Multiset.mem_singleton_self _))

theorem Inv.take (inv : Inv s) {pop : PriorityIndex → PriorityIndex × Option PendingEntry}
    (pops : ∀ pi : PriorityIndex, pi.TakesFront (pop pi)) :
    Inv (s.take (s.partition.popNext pop)) := by
  obtain ⟨next, pending, handed⟩ := popNext_pending s.partition pops
  have kept := inv.of_partition (Nat.le_of_eq next.symm) fun _ member =>
    .inl (pending _ member)
  refine ⟨kept.grown, kept.pending, fun offset member => ?_⟩
  rcases List.mem_append.mp member with old | new
  · exact kept.returned offset old
  · obtain ⟨low, high⟩ := inv.pending offset (handed offset new)
    exact ⟨low, Nat.lt_of_lt_of_eq high next.symm⟩

theorem Inv.step (inv : Inv s) (event : LifeEvent) : Inv (s.step event) := by
  cases event with
  | append call => exact inv.append call
  | retain call =>
    obtain ⟨index, next⟩ := retention_index s.partition call
    refine inv.of_partition (Nat.le_of_eq next.symm) fun offset member => .inl ?_
    rwa [Partition.pendingOffsets, index] at member
  | strictNext => exact inv.take fun pi => pi.popFirst_takesFront (levelsDownTo 0)
  | dqnNext threshold => exact inv.take fun pi => pi.popWithThreshold_takesFront threshold
  | restart codec => exact inv_opened ..

/-- A priority scheduler hands out only messages that were appended since the partition
was opened last: what a restart finds in the log is never delivered. -/
theorem restart_strands_backlog (id : Int) (log : Log) (mode : ScheduleMode)
    (codec : Option Codec) (events : List LifeEvent) :
    ∀ s ∈ Runs.states step (opened id log mode codec) events,
      ∀ offset ∈ s.returned, s.New offset :=
  fun s member => (Runs.invariant_of_step (fun s event (inv : Inv s) => inv.step event) events
    _ (inv_opened ..) s member).returned

theorem restart_strands_backlog_one :
    let s := Runs.final step (opened 0 Log.empty .strictPriority none)
      [.append (.plain [sampleMessage 5 7 118] (steadyEnv 9)), .restart none,
       .append (.plain [sampleMessage 5 8 119] (steadyEnv 9)), .strictNext, .strictNext]
    s.returned = [2] ∧ s.New 2 :=
  have only : _ = [2] := by decide +kernel
  ⟨only, restart_strands_backlog 0 Log.empty .strictPriority none _ _
    (Runs.final_mem_states ..) 2 (by rw [only]; exact .head _)⟩

end PriorityLife

end NyaQueue
