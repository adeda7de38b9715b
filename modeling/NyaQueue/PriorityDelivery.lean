import NyaQueue.Scheduler
import NyaQueue.PriorityAccounting
import NyaQueue.FailedWrites

/-!
# Delivery on strict-priority partitions

A run of appends and `StrictPriority.Next` calls, with the offsets that were
acknowledged and the offsets that were handed out.  The index keeps at most
50 000 entries a level and drops the oldest beyond that, and the append that
causes it does not look at the result.
-/

set_option autoImplicit false

namespace NyaQueue

/-- The bound `NewPartition` gives each level. -/
def indexCapacity : Nat := 50000

/-- The offsets waiting in the index. -/
def Partition.pendingOffsets (p : Partition) : Multiset Nat :=
  match p.priorityIndex with
  | none => 0
  | some pi => pi.pending.map fun e => offsetOfInt64 e.walOffset

structure Delivery where
  partition : Partition
  acknowledged : List Nat
  returned : List Nat

inductive DeliveryEvent where
  | append (call : AppendCall)
  | next

def acknowledgedBy : Except AppendError (List Nat) → List Nat
  | .ok offsets => offsets
  | .error _ => []

def returnedBy : NextResult → List Nat
  | .ok (_, offset) => [offset]
  | .error _ => []

namespace Delivery

/-- A strict-priority partition as the broker opens it. -/
def opened (id : Int) (log : Log) (codec : Option Codec) : Delivery where
  partition := Partition.opened id log .strictPriority codec
  acknowledged := []
  returned := []

def step (s : Delivery) : DeliveryEvent → Delivery
  | .append call =>
      { s with
        partition := (call.run s.partition).2
        acknowledged := s.acknowledged ++ acknowledgedBy (call.run s.partition).1 }
  | .next =>
      { s with
        partition := s.partition.strictPriorityNext.2
        returned := s.returned ++ returnedBy s.partition.strictPriorityNext.1 }

/-- Each acknowledged message waits in the index once or was returned once. -/
def NothingLost (s : Delivery) : Prop :=
  ∀ offset ∈ s.acknowledged,
    (s.partition.pendingOffsets.count offset = 1 ∧ s.returned.count offset = 0) ∨
    (s.partition.pendingOffsets.count offset = 0 ∧ s.returned.count offset = 1)

/-- The records of the entries that are popped can be read. -/
def ReadSucceeds (s : Delivery) : DeliveryEvent → Prop
  | .append _ => True
  | .next => ∀ cause, s.partition.strictPriorityNext.1 ≠ .error (.read cause)

/-- A successful append finds room in the index for all of its messages. -/
def RoomFor (s : Delivery) : DeliveryEvent → Prop
  | .append call => ∀ offsets pi, (call.run s.partition).1 = .ok offsets →
      s.partition.priorityIndex = some pi → HasRoom indexCapacity pi call.msgs
  | .next => True

/-- The books of a run that has dropped nothing. -/
structure Balanced (s : Delivery) : Prop where
  indexed : ∃ pi, s.partition.priorityIndex = some pi ∧ pi.Capacity indexCapacity
  balance : s.partition.pendingOffsets + (s.returned : Multiset Nat) = s.acknowledged
  distinct : s.acknowledged.Nodup
  assigned : ∀ offset ∈ s.acknowledged, offset < s.partition.nextOffset

variable {s t : Delivery} {msgs : List Message} {evicted : List Nat}

theorem nothingLost_of_balanced (books : s.Balanced) : s.NothingLost := by
  intro offset member
  have once : s.acknowledged.count offset = 1 := List.count_eq_one_of_mem books.distinct member
  have total := congrArg (Multiset.count offset) books.balance
  rw [Multiset.count_add, Multiset.coe_count, Multiset.coe_count, once] at total
  omega

theorem balanced_opened (id : Int) (log : Log) (codec : Option Codec) :
    (opened id log codec).Balanced := by
  refine ⟨⟨_, rfl, PriorityIndex.newPriorityIndex_capacity 50000⟩, ?_, List.nodup_nil, by simp [opened]⟩
  simp [opened, Partition.opened, Partition.new, Partition.pendingOffsets,
    PriorityIndex.newPriorityIndex_pending]

/-! ## One append -/

/-- The offsets an index update drops. -/
def evictedOffsets (now : Time) (msgs : List Message) (nextOffset : Nat) (pi : PriorityIndex) :
    List Nat :=
  (indexEvicted now (msgs.zip (List.range' nextOffset msgs.length)) pi).map
    fun e => offsetOfInt64 e.walOffset

theorem offsets_of_entries (now : Time) (msgs : List Message) (nextOffset : Nat)
    (fits : nextOffset + msgs.length ≤ 2 ^ 64) :
    ((msgs.zip (List.range' nextOffset msgs.length)).map (indexEntry now)).map
      (fun e => offsetOfInt64 e.walOffset) = List.range' nextOffset msgs.length := by
  have seconds : (msgs.zip (List.range' nextOffset msgs.length)).map Prod.snd =
      List.range' nextOffset msgs.length :=
    List.map_snd_zip (by simp)
  refine Eq.trans ?_ seconds
  rw [List.map_map]
  apply List.map_congr_left
  intro entry member
  have inside : entry.2 ∈ List.range' nextOffset msgs.length := by
    rw [← seconds]
    exact List.mem_map_of_mem member
  obtain ⟨i, small, value⟩ := List.mem_range'.mp inside
  simp only [Function.comp_apply, indexEntry]
  rw [offsetOfInt64_int64OfOffset (by omega)]

/-- A successful append: its offsets are acknowledged, and together with what
the index dropped they account for everything pending. -/
structure Stored (s t : Delivery) (msgs : List Message) (evicted : List Nat) : Prop where
  returned : t.returned = s.returned
  acknowledged : t.acknowledged =
    s.acknowledged ++ List.range' s.partition.nextOffset msgs.length
  nextOffset : t.partition.nextOffset = s.partition.nextOffset + msgs.length
  capacity : ∃ pi, t.partition.priorityIndex = some pi ∧ pi.Capacity indexCapacity
  pending : t.partition.pendingOffsets + (evicted : Multiset Nat) =
    s.partition.pendingOffsets + (List.range' s.partition.nextOffset msgs.length : Multiset Nat)

variable {pi : PriorityIndex} {call : AppendCall}

theorem pending_of_written {p : Partition} {log : Log} {batch : List (Nat × Bytes)}
    (indexed : p.priorityIndex = some pi) (nonempty : call.msgs ≠ [])
    (offsets : batch.map Prod.fst = List.range' p.nextOffset call.msgs.length)
    (written : p.log.writeBatch batch call.env.disk = .ok log) :
    (p.stored log call.msgs call.env.indexTime).pendingOffsets +
        (evictedOffsets call.env.indexTime call.msgs p.nextOffset pi : Multiset Nat) =
      p.pendingOffsets + (List.range' p.nextOffset call.msgs.length : Multiset Nat) := by
  have length : batch.length = call.msgs.length := by
    rw [← List.length_map, offsets, List.length_range']
  have fits : p.nextOffset + call.msgs.length ≤ 2 ^ 64 := by
    have next := Partition.nextOffset_of_written written offsets
      (List.length_pos_of_ne_nil nonempty)
    have grown := Log.nextIndex_writeBatch written
    have bound := log.next_fits
    unfold Log.nextIndex at grown next
    omega
  have balance := pending_indexMessages call.env.indexTime
    (call.msgs.zip (List.range' p.nextOffset call.msgs.length)) pi
  have mapped := congrArg (Multiset.map fun e => offsetOfInt64 e.walOffset) balance
  rw [Multiset.map_add, Multiset.map_add, Multiset.map_coe, Multiset.map_coe,
    offsets_of_entries _ _ _ fits] at mapped
  simp only [Partition.pendingOffsets, Partition.stored, indexed, Option.map_some]
  exact mapped

theorem stored_of_written {log : Log} {batch : List (Nat × Bytes)}
    (indexed : s.partition.priorityIndex = some pi) (capacity : pi.Capacity indexCapacity)
    (nonempty : call.msgs ≠ [])
    (offsets : batch.map Prod.fst = List.range' s.partition.nextOffset call.msgs.length)
    (written : s.partition.log.writeBatch batch call.env.disk = .ok log)
    (success : call.run s.partition =
      (.ok (List.range' s.partition.nextOffset call.msgs.length),
        s.partition.stored log call.msgs call.env.indexTime)) :
    s.Stored (s.step (.append call)) call.msgs
      (evictedOffsets call.env.indexTime call.msgs s.partition.nextOffset pi) := by
  have index : (s.step (.append call)).partition.priorityIndex = some
      (indexMessages call.env.indexTime
        (call.msgs.zip (List.range' s.partition.nextOffset call.msgs.length)) pi) := by
    simp only [step, success, Partition.stored, Partition.advance, indexed, Option.map_some]
  refine ⟨rfl, ?_, ?_, ⟨_, index, indexMessages_capacity _ _ _ capacity⟩, ?_⟩
  · simp only [step, success, acknowledgedBy]
  · simp only [step, success, Partition.stored, Partition.advance]
  · simp only [step, success]
    exact pending_of_written indexed nonempty offsets written

theorem Stored.distinct (stored : s.Stored t msgs evicted) (books : s.Balanced) :
    t.acknowledged.Nodup := by
  rw [stored.acknowledged]
  refine List.Nodup.append books.distinct List.nodup_range' ?_
  intro offset old new
  have before := books.assigned offset old
  obtain ⟨i, -, value⟩ := List.mem_range'.mp new
  omega

theorem Stored.balance (stored : s.Stored t msgs evicted) (books : s.Balanced) :
    t.partition.pendingOffsets + (evicted : Multiset Nat) + (t.returned : Multiset Nat) =
      t.acknowledged := by
  rw [stored.pending, stored.returned, stored.acknowledged, ← Multiset.coe_add, ← books.balance]
  abel

theorem Stored.balanced (stored : s.Stored t msgs []) (books : s.Balanced) : t.Balanced := by
  refine ⟨stored.capacity, ?_, stored.distinct books, ?_⟩
  · have balance := stored.balance books
    rwa [Multiset.coe_nil, add_zero] at balance
  · intro offset member
    rw [stored.acknowledged] at member
    rw [stored.nextOffset]
    rcases List.mem_append.mp member with old | new
    · have := books.assigned offset old
      omega
    · obtain ⟨i, small, value⟩ := List.mem_range'.mp new
      omega

theorem Stored.lost (stored : s.Stored t msgs evicted) (books : s.Balanced) {offset : Nat}
    (dropped : offset ∈ evicted) :
    offset ∈ t.acknowledged ∧ t.partition.pendingOffsets.count offset = 0 ∧
      t.returned.count offset = 0 := by
  have total := congrArg (Multiset.count offset) (stored.balance books)
  rw [Multiset.count_add, Multiset.count_add, Multiset.coe_count, Multiset.coe_count,
    Multiset.coe_count] at total
  have some := List.count_pos_iff.mpr dropped
  have once := List.nodup_iff_count_le_one.mp (stored.distinct books) offset
  exact ⟨List.count_pos_iff.mp (by omega), by omega, by omega⟩

theorem Stored.evicted_eq_nil (stored : s.Stored t msgs evicted) (books : s.Balanced)
    (kept : t.NothingLost) :
    evicted = [] := by
  cases evicted with
  | nil => rfl
  | cons offset rest =>
    obtain ⟨member, unqueued, unreturned⟩ := stored.lost books List.mem_cons_self
    rcases kept offset member with ⟨queued, -⟩ | ⟨-, delivered⟩ <;> omega

theorem balanced_of_unacknowledged (books : s.Balanced) {result : Except AppendError (List Nat)}
    {q : Partition} (run : call.run s.partition = (result, q)) (none : acknowledgedBy result = [])
    (index : q.priorityIndex = s.partition.priorityIndex)
    (later : s.partition.nextOffset ≤ q.nextOffset) : (s.step (.append call)).Balanced := by
  obtain ⟨indexed, balance, distinct, assigned⟩ := books
  simp only [step, run, none, List.append_nil]
  refine ⟨?_, ?_, distinct, ?_⟩
  · simp only [index]
    exact indexed
  · simp only [Partition.pendingOffsets, index] at balance ⊢
    exact balance
  · intro offset member
    exact Nat.lt_of_lt_of_le (assigned offset member) later

/-- The two kinds of append: one that acknowledges nothing, and one that stores
its messages and may drop others from the index. -/
theorem append_cases (books : s.Balanced) (call : AppendCall) :
    ((s.step (.append call)).Balanced ∧ s.RoomFor (.append call)) ∨
    ∃ pi offsets, s.partition.priorityIndex = some pi ∧ pi.Capacity indexCapacity ∧
      (call.run s.partition).1 = .ok offsets ∧
      s.Stored (s.step (.append call)) call.msgs
        (evictedOffsets call.env.indexTime call.msgs s.partition.nextOffset pi) := by
  obtain ⟨pi, indexed, capacity⟩ := books.indexed
  by_cases empty : call.msgs = []
  · refine .inl ⟨balanced_of_unacknowledged books (call.run_empty _ empty) rfl rfl
      (Nat.le_refl _), ?_⟩
    intro offsets pi' _ same p
    rw [indexed] at same
    cases same
    rw [empty]
    exact contents_length_le capacity (by decide) p
  · rcases call.run_cases s.partition empty with
      ⟨error, -, failed⟩ | ⟨batch, -, -, offsets, outcome⟩
    · refine .inl ⟨balanced_of_unacknowledged books failed rfl rfl (Nat.le_refl _), ?_⟩
      intro offsets pi' success
      rw [failed] at success
      cases success
    · rcases outcome with ⟨cause, error, -, failed⟩ | ⟨log, written, success⟩
      · refine .inl ⟨balanced_of_unacknowledged books failed rfl rfl (Nat.le_add_right _ _), ?_⟩
        intro offsets pi' success
        rw [failed] at success
        cases success
      · refine .inr ⟨pi, _, indexed, capacity, by rw [success], ?_⟩
        exact stored_of_written indexed capacity empty offsets written success

theorem evictedOffsets_eq_nil_iff (capacity : pi.Capacity indexCapacity) (now : Time)
    (msgs : List Message) (nextOffset : Nat) :
    evictedOffsets now msgs nextOffset pi = [] ↔ HasRoom indexCapacity pi msgs := by
  have firsts : (msgs.zip (List.range' nextOffset msgs.length)).map Prod.fst = msgs :=
    List.map_fst_zip (by simp)
  rw [evictedOffsets, List.map_eq_nil_iff, indexEvicted_eq_nil_iff now (by decide) _ pi capacity,
    firsts]

/-! ## One call of `Next` -/

theorem balanced_next (books : s.Balanced) (reads : s.ReadSucceeds .next) :
    (s.step .next).Balanced := by
  obtain ⟨⟨pi, indexed, capacity⟩, balance, distinct, assigned⟩ := books
  have pops : pi.TakesFront pi.popHighest := pi.popFirst_takesFront (levelsDownTo 0)
  rcases Partition.popNext_cases indexed PriorityIndex.popHighest with
    ⟨nothing, result⟩ | ⟨entry, popped, outcome⟩
  · have same := pops.none nothing
    refine ⟨⟨pi, ?_, capacity⟩, ?_, distinct, ?_⟩
    · simp only [step, Partition.strictPriorityNext, result]
      exact congrArg some same
    · simp only [step, Partition.strictPriorityNext, result, returnedBy, List.append_nil,
        Partition.pendingOffsets, indexed] at balance ⊢
      rw [same]
      exact balance
    · simp only [step, Partition.strictPriorityNext, result]
      exact assigned
  · rcases outcome with ⟨cause, -, result⟩ | ⟨msg, -, result⟩
    · exact absurd (by rw [Partition.strictPriorityNext, result]) (reads cause)
    · refine ⟨⟨_, by simp only [step, Partition.strictPriorityNext, result], pops.capacity capacity⟩,
        ?_, distinct, ?_⟩
      · have taken := pops.pending popped
        simp only [step, Partition.strictPriorityNext, result, returnedBy,
          Partition.pendingOffsets, indexed] at balance ⊢
        rw [← balance, ← taken, Multiset.map_add, Multiset.map_singleton, ← Multiset.coe_add,
          Multiset.coe_singleton]
        abel
      · simp only [step, Partition.strictPriorityNext, result]
        exact assigned

/-! ## Whole runs -/

theorem balanced_step {event : DeliveryEvent} (books : s.Balanced) (reads : s.ReadSucceeds event)
    (room : s.RoomFor event) : (s.step event).Balanced := by
  cases event with
  | next => exact balanced_next books reads
  | append call =>
    rcases append_cases books call with ⟨kept, -⟩ | ⟨pi, offsets, indexed, capacity, success, stored⟩
    · exact kept
    · have nothing := (evictedOffsets_eq_nil_iff capacity call.env.indexTime call.msgs
        s.partition.nextOffset).mpr (room offsets pi success indexed)
      rw [nothing] at stored
      exact stored.balanced books

theorem roomFor_of_nothingLost {event : DeliveryEvent} (books : s.Balanced)
    (kept : (s.step event).NothingLost) : s.RoomFor event := by
  cases event with
  | next => trivial
  | append call =>
    rcases append_cases books call with ⟨-, room⟩ | ⟨pi, offsets, indexed, capacity, success, stored⟩
    · exact room
    · have nothing := stored.evicted_eq_nil books kept
      intro offsets' pi' _ same
      rw [indexed] at same
      cases same
      exact (evictedOffsets_eq_nil_iff capacity _ _ _).mp nothing

/-- On a run whose reads succeed nothing is lost at any moment exactly when
every append finds room in the index for its messages. -/
theorem run_loses_nothing_iff (id : Int) (log : Log) (codec : Option Codec)
    (events : List DeliveryEvent)
    (reads : Runs.Guarded step ReadSucceeds (opened id log codec) events) :
    (∀ state ∈ Runs.states step (opened id log codec) events, state.NothingLost) ↔
      Runs.Guarded step RoomFor (opened id log codec) events :=
  Runs.states_good_iff_guarded (fun _ => nothingLost_of_balanced)
    (fun (s : Delivery) _ (books : s.Balanced) => balanced_step books)
    (fun (s : Delivery) _ (books : s.Balanced) _ => roomFor_of_nothingLost books)
    events _ (balanced_opened id log codec) reads

theorem run_loses_nothing_iff_sample :
    let events := [DeliveryEvent.append (.plain [sampleMessage 5 7 118] (steadyEnv 9)), .next]
    (∀ state ∈ Runs.states step (opened 0 Log.empty none) events, state.NothingLost) ↔
      Runs.Guarded step RoomFor (opened 0 Log.empty none) events := by
  intro events
  apply run_loses_nothing_iff
  refine ⟨trivial, ?_, trivial⟩
  have delivered : ((opened 0 Log.empty none).step (.append
      (.plain [sampleMessage 5 7 118] (steadyEnv 9)))).partition.strictPriorityNext.1 =
      .ok ((sampleMessage 5 7 118).stamp 9, 1) := by decide +kernel
  intro cause failed
  rw [delivered] at failed
  cases failed

theorem overfull_level_loses (count : Nat) (more : indexCapacity < count)
    (fits : 1 + count < 2 ^ 64) (m : Message) (env : AppendEnv) (healthy : env.disk = true) :
    let after := (opened 0 Log.empty none).step (.append (.plain (List.replicate count m) env))
    after.acknowledged = List.range' 1 count ∧ after.returned = [] ∧
      ∃ offset ∈ after.acknowledged, after.partition.pendingOffsets.count offset = 0 := by
  intro after
  have books := balanced_opened 0 Log.empty none
  have nonempty : List.replicate count m ≠ [] := by
    rw [ne_eq, List.replicate_eq_nil_iff]
    omega
  obtain ⟨offsets, success⟩ : ∃ offsets, ((AppendCall.plain (List.replicate count m) env).run
      (opened 0 Log.empty none).partition).1 = .ok offsets :=
    Partition.appendable_of_next rfl nonempty rfl healthy
      (by rw [AppendCall.msgs, List.length_replicate]; exact fits)
  have tooMany : ¬ HasRoom indexCapacity (newPriorityIndex 50000) (List.replicate count m) := by
    intro room
    have level := room (messageLevel m)
    rw [List.countP_replicate, if_pos (by simp)] at level
    omega
  rcases append_cases books (.plain (List.replicate count m) env) with
    ⟨-, room⟩ | ⟨pi, -, indexed, capacity, -, stored⟩
  · exact absurd (room offsets _ success rfl) tooMany
  · cases indexed
    have acknowledged := stored.acknowledged
    rw [AppendCall.msgs, List.length_replicate] at acknowledged
    refine ⟨acknowledged, stored.returned, ?_⟩
    obtain ⟨offset, dropped⟩ := List.exists_mem_of_ne_nil _
      (mt (evictedOffsets_eq_nil_iff capacity _ _ _).mp tooMany)
    obtain ⟨member, unqueued, -⟩ := stored.lost books dropped
    exact ⟨offset, member, unqueued⟩

/-- One batch of 50 001 messages of the same priority: all are acknowledged,
and one of them is in neither place. -/
theorem full_level_loses_message :
    let call := AppendCall.plain (List.replicate 50001 (sampleMessage 5 7 118)) (steadyEnv 9)
    let after := (opened 0 Log.empty none).step (.append call)
    after.acknowledged = List.range' 1 50001 ∧ after.returned = [] ∧
    (∃ offset ∈ after.acknowledged, after.partition.pendingOffsets.count offset = 0) ∧
    ¬ after.NothingLost := by
  intro call after
  obtain ⟨acknowledged, returned, offset, member, unqueued⟩ :=
    overfull_level_loses 50001 (by decide) (by decide) (sampleMessage 5 7 118)
      (steadyEnv 9) rfl
  refine ⟨acknowledged, returned, ⟨offset, member, unqueued⟩, ?_⟩
  intro kept
  rcases kept offset member with ⟨queued, -⟩ | ⟨-, delivered⟩
  · exact absurd (queued.symm.trans unqueued) (by decide)
  · rw [returned] at delivered
    cases delivered

end Delivery

end NyaQueue
