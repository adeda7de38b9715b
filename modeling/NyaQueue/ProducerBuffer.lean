import NyaQueue.BufferedProducer
import NyaQueue.Lib.Accounting

/-!
# What becomes of buffered messages

Every critical section of the producer either appends one message to the
buffer, takes the whole buffer out as a batch, or does both.  A ledger beside
the producer notes the messages in the order in which `Send` appends them and
the batches in the order in which they are taken out; at any moment the batches
followed by the buffer are the appended messages.
-/

set_option autoImplicit false

namespace NyaQueue

open Accounting

/-- The bytes of a message that count towards the memory limit. -/
def ProduceMessage.size (m : ProduceMessage) : Nat := m.key.length + m.value.length

/-- The batch that goes to `ProduceBatch` when the lock is given back. -/
def Release.batches : Release → List (List ProduceMessage)
  | .returns _ => []
  | .hands batch _ => [batch]

namespace BufferedProducer

/-- `Send` reaches the line that appends its message. -/
def appends (p : BufferedProducer) (m : ProduceMessage) : Bool :=
  decide (p.closed = false ∧ p.asyncErr = none ∧
    ¬(0 < p.maxMemoryBytes ∧ p.maxMemoryBytes < p.bufBytes + m.size ∧ 0 < p.buf.length) ∧
    ¬(0 < p.maxMemoryBytes ∧ p.maxMemoryBytes < m.size))

def appendedBy (p : BufferedProducer) : ProducerCall → List ProduceMessage
  | .send m => if p.appends m then [m] else []
  | .flush => []
  | .close => []

/-- The buffer and its byte count agree and stay below the limits. -/
structure WithinLimits (p : BufferedProducer) : Prop where
  bytes : p.bufBytes = (p.buf.map ProduceMessage.size).sum
  short : (p.buf.length : Int) < p.batchSize
  memory : 0 < p.maxMemoryBytes → p.buf ≠ [] → (p.bufBytes : Int) < p.maxMemoryBytes
  drained : p.closed = true → p.buf = []

variable {p : BufferedProducer}

theorem WithinLimits.rearmed (limits : p.WithinLimits) (asyncErr : Option SendError)
    (timer : Option Bool) :
    ({ p with asyncErr := asyncErr, timer := timer } : BufferedProducer).WithinLimits :=
  ⟨limits.bytes, limits.short, limits.memory, limits.drained⟩

theorem swapOut_withinLimits (positive : 1 ≤ p.batchSize) :
    p.swapOut.WithinLimits where
  bytes := rfl
  short := Int.lt_of_lt_of_le Int.zero_lt_one positive
  memory _ some := absurd rfl some
  drained _ := rfl

/-- What one critical section does to the buffer: what it takes out and what it
leaves are the old buffer and what it appends. -/
structure Conserves (p : BufferedProducer) (appended : List ProduceMessage)
    (released : Release × BufferedProducer) : Prop where
  messages : p.buf ++ appended = released.1.batches.flatten ++ released.2.buf
  limits : released.2.WithinLimits
  batchSize : released.2.batchSize = p.batchSize
  closed : p.closed = true → released.2.closed = true

theorem conserves_idle (limits : p.WithinLimits) (err : Option ProducerError) :
    p.Conserves [] (.returns err, p) :=
  ⟨List.append_nil _, limits, rfl, fun closed => closed⟩

theorem conserves_swapOut (positive : 1 ≤ p.batchSize) (again : Bool) :
    p.Conserves [] (.hands p.buf again, p.swapOut) where
  messages := by simp [Release.batches, swapOut]
  limits := swapOut_withinLimits positive
  batchSize := rfl
  closed closed := closed

theorem flush_conserves (limits : p.WithinLimits) (positive : 1 ≤ p.batchSize) :
    p.Conserves [] p.flush := by
  unfold flush
  split
  · exact conserves_idle limits none
  · exact conserves_swapOut positive false

theorem close_conserves (limits : p.WithinLimits) (positive : 1 ≤ p.batchSize) :
    p.Conserves [] p.close := by
  unfold close
  split
  · exact conserves_idle limits none
  · have swapped : ({ p.swapOut with closed := true } : BufferedProducer).WithinLimits :=
      ⟨rfl, Int.lt_of_lt_of_le Int.zero_lt_one positive, fun _ some => absurd rfl some,
        fun _ => rfl⟩
    dsimp only
    split
    · rename_i empty
      refine ⟨?_, swapped, rfl, fun _ => rfl⟩
      rw [List.length_eq_zero_iff.mp empty]
      rfl
    · exact ⟨by simp [Release.batches, swapOut], swapped, rfl, fun _ => rfl⟩

theorem append_conserves (limits : p.WithinLimits) (positive : 1 ≤ p.batchSize)
    (opened : p.closed = false) (m : ProduceMessage) :
    let p' := { p with buf := p.buf ++ [m], bufBytes := p.bufBytes + m.size }
    p.Conserves [m]
      (if p'.batchSize ≤ p'.buf.length ∨ (0 < p'.maxMemoryBytes ∧ p'.maxMemoryBytes ≤ p'.bufBytes)
        then (.hands p'.buf false, p'.swapOut)
        else if p'.timer = none ∧ 0 < p'.linger then
          (.returns none, { p' with timer := some true })
        else (.returns none, p')) := by
  intro p'
  by_cases full : p'.batchSize ≤ p'.buf.length ∨
      (0 < p'.maxMemoryBytes ∧ p'.maxMemoryBytes ≤ p'.bufBytes)
  · rw [if_pos full]
    refine ⟨by simp [Release.batches, swapOut, p'], swapOut_withinLimits positive, rfl,
      fun closed => closed⟩
  · rw [if_neg full]
    obtain ⟨short, memory⟩ := not_or.mp full
    have kept : p'.WithinLimits := by
      refine ⟨?_, Int.not_le.mp short, ?_, ?_⟩
      · simp [p', limits.bytes]
      · intro limited _
        exact Int.not_le.mp fun above => memory ⟨limited, above⟩
      · intro closed
        exact absurd (opened.symm.trans closed) Bool.false_ne_true
    split
    · exact ⟨by simp [Release.batches, p'], kept.rearmed _ _, rfl, fun closed => closed⟩
    · exact ⟨by simp [Release.batches, p'], kept, rfl, fun closed => closed⟩

theorem send_conserves (limits : p.WithinLimits) (positive : 1 ≤ p.batchSize) (m : ProduceMessage) :
    p.Conserves (p.appendedBy (.send m)) (p.send m) := by
  have refused : p.appends m = false → p.appendedBy (.send m) = [] := by
    intro none
    rw [appendedBy, none]
    rfl
  by_cases closed : p.closed = true
  · have returned : p.send m = (.returns (some .closed), p) := by
      unfold send
      rw [if_pos closed]
    rw [refused (by simp [appends, closed]), returned]
    exact conserves_idle limits _
  · have opened : p.closed = false := Bool.not_eq_true _ ▸ closed
    have size : m.key.length + m.value.length = m.size := rfl
    unfold send
    rw [if_neg closed]
    split
    · rename_i err parked
      rw [refused (by simp [appends, parked])]
      exact ⟨List.append_nil _, limits.rearmed _ _, rfl, fun closed => closed⟩
    · rename_i parked
      dsimp only
      rw [size]
      by_cases pressure : 0 < p.maxMemoryBytes ∧ p.maxMemoryBytes < p.bufBytes + m.size ∧
          0 < p.buf.length
      · rw [refused (by simp [appends, pressure]), if_pos pressure]
        exact conserves_swapOut positive true
      · by_cases exceeded : 0 < p.maxMemoryBytes ∧ p.maxMemoryBytes < m.size
        · rw [refused (by simp [appends, exceeded]), if_neg pressure, if_pos exceeded]
          exact conserves_idle limits _
        · have accepted : p.appends m = true :=
            decide_eq_true ⟨opened, parked, pressure, exceeded⟩
          rw [appendedBy, accepted, if_pos rfl, if_neg pressure, if_neg exceeded]
          exact append_conserves limits positive opened m

theorem locked_conserves (limits : p.WithinLimits) (positive : 1 ≤ p.batchSize)
    (call : ProducerCall) :
    p.Conserves (p.appendedBy call) (p.locked call) := by
  cases call with
  | send m => exact send_conserves limits positive m
  | flush => exact flush_conserves limits positive
  | close => exact close_conserves limits positive

theorem appendedBy_closed (closed : p.closed = true) (call : ProducerCall) :
    p.appendedBy call = [] := by
  cases call with
  | send m => simp [appendedBy, appends, closed]
  | flush => rfl
  | close => rfl

end BufferedProducer

/-! ## The ledger of a run -/

/-- The batch whose `ProduceBatch` is under way. -/
def ProducerThread.carried : ProducerThread → Multiset (List ProduceMessage)
  | .sending _ batch _ => {batch}
  | .flushing batch => {batch}
  | _ => 0

namespace ProducerRun

/-- The message that an event appends to the buffer. -/
def appending (s : ProducerRun) : ProducerEvent → List ProduceMessage
  | .lock i =>
      match s.threads i with
      | .locking call => s.producer.appendedBy call
      | _ => []
  | _ => []

/-- The batch that an event takes out of the buffer. -/
def handing (s : ProducerRun) : ProducerEvent → List (List ProduceMessage)
  | .lock i =>
      match s.threads i with
      | .locking call => (s.producer.locked call).1.batches
      | .fired => s.producer.flush.1.batches
      | _ => []
  | _ => []

def carried (s : ProducerRun) (i : Nat) : Multiset (List ProduceMessage) := (s.threads i).carried

/-- The batches that `ProduceBatch` is done with. -/
def answered (s : ProducerRun) : Multiset (List ProduceMessage) := s.outcomes.map Prod.fst

end ProducerRun

structure ProducerLedger where
  run : ProducerRun
  /-- the messages that `Send` has appended, in this order -/
  accepted : List ProduceMessage
  /-- the batches that have been taken out of the buffer, in this order -/
  handed : List (List ProduceMessage)

namespace ProducerLedger

def opened (p : BufferedProducer) : ProducerLedger where
  run := .begin p
  accepted := []
  handed := []

def step (l : ProducerLedger) (event : ProducerEvent) : ProducerLedger where
  run := l.run.step event
  accepted := l.accepted ++ l.run.appending event
  handed := l.handed ++ l.run.handing event

structure Accounts (l : ProducerLedger) : Prop where
  /-- each accepted message is in one batch or still buffered, in this order -/
  messages : l.handed.flatten ++ l.run.producer.buf = l.accepted
  /-- each batch is with one `ProduceBatch`, under way or over -/
  batches : ∃ underway, Totals l.run.carried underway ∧
    (l.handed : Multiset (List ProduceMessage)) = l.run.answered + underway
  limits : l.run.producer.WithinLimits

end ProducerLedger

namespace ProducerRun

theorem step_conserves {s : ProducerRun} (limits : s.producer.WithinLimits)
    (positive : 1 ≤ s.producer.batchSize) (event : ProducerEvent) :
    s.producer.buf ++ s.appending event =
        (s.handing event).flatten ++ (s.step event).producer.buf ∧
      (s.step event).producer.WithinLimits ∧
      (s.step event).producer.batchSize = s.producer.batchSize ∧
      (s.producer.closed = true → (s.step event).producer.closed = true) := by
  have idle : s.producer.buf ++ [] = ([] : List (List ProduceMessage)).flatten ++ s.producer.buf :=
    List.append_nil _
  cases event with
  | start i call =>
    unfold step
    dsimp only
    split <;> exact ⟨idle, limits, rfl, fun closed => closed⟩
  | fire i =>
    unfold step
    dsimp only
    split
    · exact ⟨idle, limits.rearmed _ _, rfl, fun closed => closed⟩
    · exact ⟨idle, limits, rfl, fun closed => closed⟩
  | lock i =>
    unfold step appending handing
    dsimp only
    cases at_i : s.threads i with
    | locking call =>
      have conserved := BufferedProducer.locked_conserves limits positive call
      have after : (s.lockCall i call).producer = (s.producer.locked call).2 := by
        unfold lockCall
        dsimp only
        split <;> rfl
      simp only [after]
      exact ⟨conserved.messages, conserved.limits, conserved.batchSize, conserved.closed⟩
    | fired =>
      have conserved := BufferedProducer.flush_conserves limits positive
      have after : (s.lockTimer i).producer = s.producer.flush.2 := by
        unfold lockTimer
        dsimp only
        split <;> rfl
      simp only [after]
      exact ⟨conserved.messages, conserved.limits, conserved.batchSize, conserved.closed⟩
    | parking err =>
      dsimp only
      unfold BufferedProducer.park
      split
      · exact ⟨idle, limits.rearmed _ _, rfl, fun closed => closed⟩
      · exact ⟨idle, limits, rfl, fun closed => closed⟩
    | _ => exact ⟨idle, limits, rfl, fun closed => closed⟩
  | answer i err =>
    unfold step
    dsimp only
    split
    · unfold answerCall
      dsimp only
      split
      · split <;> exact ⟨idle, limits, rfl, fun closed => closed⟩
      · exact ⟨idle, limits, rfl, fun closed => closed⟩
    · unfold answerTimer
      dsimp only
      split <;> exact ⟨idle, limits, rfl, fun closed => closed⟩
    · exact ⟨idle, limits, rfl, fun closed => closed⟩

/-- One thread moves on, with what it carried before and the batches taken out,
or leaves that with the answered batches. -/
def Moves (s s' : ProducerRun) (taken : List (List ProduceMessage)) : Prop :=
  ∃ i t, s'.threads = Function.update s.threads i t ∧
    s'.answered + t.carried = s.answered + s.carried i + (taken : Multiset (List ProduceMessage))

section Moves

variable {s s' : ProducerRun} {i : Nat} {t : ProducerThread}

theorem moves_none (s : ProducerRun) : s.Moves s [] :=
  ⟨0, s.threads 0, (Function.update_eq_self 0 s.threads).symm, by simp [carried]⟩

theorem moves_taking {taken : List (List ProduceMessage)}
    (threads : s'.threads = Function.update s.threads i t) (outcomes : s'.outcomes = s.outcomes)
    (before : (s.threads i).carried = 0) (after : t.carried = taken) : s.Moves s' taken := by
  refine ⟨i, t, threads, ?_⟩
  rw [answered, answered, outcomes, carried, before, after, add_zero]

theorem moves_answered {batch : List ProduceMessage} {err : Option ClientError}
    (threads : s'.threads = Function.update s.threads i t)
    (outcomes : s'.outcomes = s.outcomes ++ [(batch, err)])
    (before : (s.threads i).carried = {batch}) (after : t.carried = 0) : s.Moves s' [] := by
  refine ⟨i, t, threads, ?_⟩
  rw [answered, answered, outcomes, carried, before, after, List.map_append, ← Multiset.coe_add]
  rfl

end Moves

theorem step_moves (s : ProducerRun) (event : ProducerEvent) :
    s.Moves (s.step event) (s.handing event) := by
  cases event with
  | start i call =>
    unfold step
    dsimp only
    split
    · rename_i at_i
      exact moves_taking rfl rfl (by rw [at_i]; rfl) rfl
    · exact s.moves_none
  | fire i =>
    unfold step
    dsimp only
    split
    · rename_i at_i _
      exact moves_taking rfl rfl (by rw [at_i]; rfl) rfl
    · exact s.moves_none
  | lock i =>
    unfold step handing
    dsimp only
    cases at_i : s.threads i with
    | locking call =>
      have before : (s.threads i).carried = 0 := by rw [at_i]; rfl
      simp only [lockCall]
      cases (s.producer.locked call).1 with
      | returns err => exact moves_taking rfl rfl before rfl
      | hands batch again => exact moves_taking rfl rfl before rfl
    | fired =>
      have before : (s.threads i).carried = 0 := by rw [at_i]; rfl
      simp only [lockTimer]
      cases s.producer.flush.1 with
      | returns err => exact moves_taking rfl rfl before rfl
      | hands batch again => exact moves_taking rfl rfl before rfl
    | parking err => exact moves_taking rfl rfl (by rw [at_i]; rfl) rfl
    | _ => exact s.moves_none
  | answer i err =>
    unfold step handing
    dsimp only
    cases at_i : s.threads i with
    | sending call batch again =>
      have before : (s.threads i).carried = {batch} := by rw [at_i]; rfl
      simp only [answerCall]
      cases err with
      | none => cases again with
        | true => exact moves_answered rfl rfl before rfl
        | false => exact moves_answered rfl rfl before rfl
      | some cause => exact moves_answered rfl rfl before rfl
    | flushing batch =>
      have before : (s.threads i).carried = {batch} := by rw [at_i]; rfl
      simp only [answerTimer]
      cases err with
      | none => exact moves_answered rfl rfl before rfl
      | some cause => exact moves_answered rfl rfl before rfl
    | _ => exact s.moves_none

end ProducerRun

namespace ProducerLedger

variable {batchSize : Int}

theorem accounts_opened (topic : Bytes) (positive : 1 ≤ batchSize) (linger maxMemoryBytes : Int) :
    (opened (newBufferedProducer topic batchSize linger maxMemoryBytes)).Accounts where
  messages := rfl
  batches := ⟨0, totals_zero fun _ => rfl, rfl⟩
  limits := ⟨rfl, Int.lt_of_lt_of_le Int.zero_lt_one positive, fun _ some => absurd rfl some,
    fun _ => rfl⟩

theorem accounts_step {l : ProducerLedger} (accounts : l.Accounts)
    (positive : 1 ≤ l.run.producer.batchSize) (event : ProducerEvent) :
    (l.step event).Accounts := by
  obtain ⟨messages, limits, -, -⟩ := l.run.step_conserves accounts.limits positive event
  refine ⟨?_, ?_, limits⟩
  · change (l.handed ++ l.run.handing event).flatten ++ (l.run.step event).producer.buf =
      l.accepted ++ l.run.appending event
    rw [List.flatten_append, List.append_assoc, ← messages, ← List.append_assoc,
      accounts.messages]
  · obtain ⟨underway, totals, balance⟩ := accounts.batches
    obtain ⟨i, t, threads, moved⟩ := l.run.step_moves event
    obtain ⟨underway', totals', changed⟩ := totals.update i t.carried
    refine ⟨underway', ?_, ?_⟩
    · have after : (l.run.step event).carried = Function.update l.run.carried i t.carried := by
        funext j
        unfold ProducerRun.carried
        rw [threads]
        by_cases here : j = i
        · rw [here, Function.update_self, Function.update_self]
        · rw [Function.update_of_ne here, Function.update_of_ne here]
      rw [step, after]
      exact totals'
    · -- both sides with what the thread carried before
      apply add_right_cancel (b := l.run.carried i)
      calc ((l.handed ++ l.run.handing event : List _) : Multiset (List ProduceMessage)) +
            l.run.carried i
          = l.run.answered + l.run.carried i + l.run.handing event + underway := by
            rw [← Multiset.coe_add, balance]
            abel
        _ = (l.run.step event).answered + underway' + l.run.carried i := by
            rw [← moved, add_assoc _ underway', changed]
            abel

theorem closed_step {l : ProducerLedger} (accounts : l.Accounts)
    (positive : 1 ≤ l.run.producer.batchSize) (closed : l.run.producer.closed = true)
    (event : ProducerEvent) :
    (l.step event).run.producer.closed = true ∧ (l.step event).accepted = l.accepted := by
  obtain ⟨-, -, -, stays⟩ := l.run.step_conserves accounts.limits positive event
  refine ⟨stays closed, ?_⟩
  have nothing : l.run.appending event = [] := by
    unfold ProducerRun.appending
    split
    · split
      · exact BufferedProducer.appendedBy_closed closed _
      · rfl
    · rfl
  rw [step, nothing, List.append_nil]

/-- The batch size is the one given to `NewBufferedProducer`. -/
def Sized (batchSize : Int) (l : ProducerLedger) : Prop :=
  l.Accounts ∧ l.run.producer.batchSize = batchSize

theorem sized_step (positive : 1 ≤ batchSize) (l : ProducerLedger) (event : ProducerEvent)
    (sized : Sized batchSize l) : Sized batchSize (l.step event) := by
  obtain ⟨accounts, rfl⟩ := sized
  obtain ⟨-, -, same, -⟩ := l.run.step_conserves accounts.limits positive event
  exact ⟨accounts_step accounts positive event, same⟩

theorem closed_final (positive : 1 ≤ batchSize) (later : List ProducerEvent) :
    ∀ l : ProducerLedger, Sized batchSize l → l.run.producer.closed = true →
      (Runs.final step l later).accepted = l.accepted ∧
        (Runs.final step l later).run.producer.buf = [] := by
  induction later with
  | nil => exact fun l sized closed => ⟨rfl, sized.1.limits.drained closed⟩
  | cons event rest ih =>
    intro l sized closed
    obtain ⟨closed', same⟩ := closed_step sized.1 (sized.2.symm ▸ positive) closed event
    obtain ⟨accepted, drained⟩ := ih _ (sized_step positive l event sized) closed'
    exact ⟨accepted.trans same, drained⟩

/-- Whatever the order of the critical sections: each message that `Send` has
appended is in one batch or still buffered, batches and buffer keep the order of
the messages, the buffer stays below its limits, and a closed producer has an
empty buffer and accepts nothing. -/
theorem buffer_accounts (topic : Bytes) {batchSize : Int} (positive : 1 ≤ batchSize)
    (linger maxMemoryBytes : Int) (events : List ProducerEvent) :
    ∀ l ∈ Runs.states step (opened (newBufferedProducer topic batchSize linger maxMemoryBytes))
      events, l.Accounts ∧ (l.run.producer.closed = true → ∀ later,
        (Runs.final step l later).accepted = l.accepted ∧
          (Runs.final step l later).run.producer.buf = []) := by
  intro l reached
  have start : Sized batchSize
      (opened (newBufferedProducer topic batchSize linger maxMemoryBytes)) :=
    ⟨accounts_opened topic positive linger maxMemoryBytes, rfl⟩
  have sized := Runs.invariant_of_step (sized_step positive) events _ start l reached
  exact ⟨sized.1, fun closed later => closed_final positive later l sized closed⟩

/-- Two messages fill a batch, a third one is flushed by the timer. -/
theorem buffer_accounts_two_batches :
    let start := opened (newBufferedProducer [116] 2 5 0)
    let events : List ProducerEvent := [.start 0 (.send ⟨[], [1], 0⟩), .lock 0,
      .start 1 (.send ⟨[], [2], 0⟩), .lock 1, .start 2 (.send ⟨[], [3], 0⟩), .lock 2, .fire 3,
      .lock 3]
    (Runs.final step start events).handed = [[⟨[], [1], 0⟩, ⟨[], [2], 0⟩], [⟨[], [3], 0⟩]] ∧
      ∀ l ∈ Runs.states step start events, l.Accounts ∧
        (l.run.producer.closed = true → ∀ later,
          (Runs.final step l later).accepted = l.accepted ∧
            (Runs.final step l later).run.producer.buf = []) :=
  ⟨by decide +kernel, buffer_accounts [116] (by decide) 5 0 _⟩

end ProducerLedger

end NyaQueue
