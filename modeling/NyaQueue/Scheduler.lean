import NyaQueue.Partition

/-!
# Schedulers

Model of `pkg/scheduler`.  The FIFO scheduler reads by consumer offset and
returns the offset after it; the two priority schedulers pop the index of the
partition and return the offset they popped.  The threshold a DQN call works
with comes from its policy or from exploration and is an argument here.
-/

set_option autoImplicit false

namespace NyaQueue

inductive NextError where
  /-- no messages available -/
  | noMessages
  /-- partition %d has no PriorityIndex -/
  | noPriorityIndex (partition : Int)
  | read (cause : ReadError)
  deriving DecidableEq, Repr

abbrev NextResult := Except NextError (Message × Nat)

namespace Partition

def fifoNext (p : Partition) (consumerOffset : Nat) : NextResult :=
  if p.highWaterMark < consumerOffset then .error .noMessages
  else
    match p.read consumerOffset with
    | .error cause => .error (.read cause)
    | .ok msg => .ok (msg, consumerOffset + 1)

/-- What both priority schedulers do with their way of popping the index; an
entry whose record cannot be read is gone from the index all the same. -/
def popNext (p : Partition) (pop : PriorityIndex → PriorityIndex × Option PendingEntry) :
    NextResult × Partition :=
  match p.priorityIndex with
  | none => (.error (.noPriorityIndex p.id), p)
  | some pi =>
      let popped := pop pi
      let p' := { p with priorityIndex := some popped.1 }
      match popped.2 with
      | none => (.error .noMessages, p')
      | some entry =>
          let offset := offsetOfInt64 entry.walOffset
          match p.read offset with
          | .error cause => (.error (.read cause), p')
          | .ok msg => (.ok (msg, offset), p')

def strictPriorityNext (p : Partition) : NextResult × Partition :=
  p.popNext PriorityIndex.popHighest

def dqnNext (p : Partition) (threshold : Int) : NextResult × Partition :=
  p.popNext fun pi => pi.popWithThreshold threshold

/-- `Next` of the scheduler that the application installs for a mode. -/
def next (p : Partition) (mode : ScheduleMode) (threshold : Int) (consumerOffset : Nat) :
    NextResult × Partition :=
  match mode with
  | .fifo => (p.fifoNext consumerOffset, p)
  | .strictPriority => p.strictPriorityNext
  | .dqnAdaptive => p.dqnNext threshold

theorem popNext_cases {p : Partition} {pi : PriorityIndex} (indexed : p.priorityIndex = some pi)
    (pop : PriorityIndex → PriorityIndex × Option PendingEntry) :
    ((pop pi).2 = none ∧
      p.popNext pop = (.error .noMessages, { p with priorityIndex := some (pop pi).1 })) ∨
    ∃ entry, (pop pi).2 = some entry ∧
      ((∃ cause, p.read (offsetOfInt64 entry.walOffset) = .error cause ∧
        p.popNext pop = (.error (.read cause), { p with priorityIndex := some (pop pi).1 })) ∨
      ∃ msg, p.read (offsetOfInt64 entry.walOffset) = .ok msg ∧
        p.popNext pop = (.ok (msg, offsetOfInt64 entry.walOffset),
          { p with priorityIndex := some (pop pi).1 })) := by
  unfold popNext
  simp only [indexed]
  cases popped : (pop pi).2 with
  | none => exact .inl ⟨rfl, rfl⟩
  | some entry =>
    refine .inr ⟨entry, rfl, ?_⟩
    dsimp only
    cases outcome : p.read (offsetOfInt64 entry.walOffset) with
    | error cause => exact .inl ⟨cause, rfl, rfl⟩
    | ok msg => exact .inr ⟨msg, rfl, rfl⟩

end Partition

end NyaQueue
