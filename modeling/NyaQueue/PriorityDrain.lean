import NyaQueue.PriorityAccounting
import NyaQueue.Lib.Runs
import NyaQueue.Lib.StableQueue

/-!
# Draining the priority index

`Add` and `PopHighest` against a queue that keeps all pending entries in one
list in the order of their insertion (`StableQueue`).  The ten rings are the
buckets of that list, so a pop returns the first-inserted entry of the highest
non-empty level, and popping until the index is empty sorts stably.
-/

set_option autoImplicit false

namespace NyaQueue

structure AddCall where
  priority : Int
  offset : Int64
  arrivedAt : Time

/-- The entry of a call, with the level it goes to. -/
def AddCall.item (call : AddCall) : Level × PendingEntry :=
  (clampLevel call.priority, ⟨call.offset, call.arrivedAt⟩)

namespace PriorityIndex

def addCall (pi : PriorityIndex) (call : AddCall) : PriorityIndex :=
  (pi.add call.priority call.offset call.arrivedAt).1

inductive DrainEvent where
  | add (call : AddCall)
  | popHighest

def drainStep (pi : PriorityIndex) : DrainEvent → PriorityIndex
  | .add call => pi.addCall call
  | .popHighest => pi.popHighest.1

/-- The same event on the pending entries in insertion order. -/
def pendingStep (capacity : Nat) (queue : List (Level × PendingEntry)) :
    DrainEvent → List (Level × PendingEntry)
  | .add call => StableQueue.push capacity queue call.item
  | .popHighest => (StableQueue.pop queue).1

/-- The rings of the index are the buckets of the queue. -/
structure Refines (capacity : Nat) (pi : PriorityIndex) (queue : List (Level × PendingEntry)) :
    Prop where
  capacity : pi.Capacity capacity
  contents : pi.contents = StableQueue.bucket queue

variable {capacity : Nat} {pi : PriorityIndex} {queue : List (Level × PendingEntry)}

theorem refines_new (maxPerLevel : Int) :
    (newPriorityIndex maxPerLevel).Refines maxPerLevel.toNat [] where
  capacity := newPriorityIndex_capacity maxPerLevel
  contents := funext fun p => newPriorityIndex_contents maxPerLevel p

theorem Refines.add (same : pi.Refines capacity queue) (call : AddCall) :
    (pi.addCall call).Refines capacity (StableQueue.push capacity queue call.item) where
  capacity := add_capacity same.capacity call.priority call.offset call.arrivedAt
  contents := by
    rw [addCall, add_contents, same.capacity, same.contents, StableQueue.bucket_push]
    rfl

theorem mem_levelsDownTo {threshold : Int} {p : Level} :
    p ∈ levelsDownTo threshold ↔ threshold ≤ (p.val : Int) := by
  simp [levelsDownTo]

theorem levelsDownTo_sorted (threshold : Int) :
    (levelsDownTo threshold).Pairwise fun first second => second < first := by
  refine List.Pairwise.filter _ (List.pairwise_reverse.mpr ?_)
  exact List.pairwise_lt_finRange maxPriority

theorem above_tried {threshold : Int} {before after : List Level} {p q : Level}
    (reaches : threshold ≤ (p.val : Int))
    (split : levelsDownTo threshold = before ++ p :: after) (above : p < q) : q ∈ before := by
  have tried : q ∈ before ++ p :: after := by
    rw [← split, mem_levelsDownTo]
    have : p.val < q.val := above
    omega
  have sorted := levelsDownTo_sorted threshold
  rw [split, List.pairwise_append, List.pairwise_cons] at sorted
  rcases List.mem_append.mp tried with earlier | later
  · exact earlier
  · rcases List.mem_cons.mp later with rfl | below
    · exact absurd above (lt_irrefl _)
    · exact absurd above (lt_asymm (sorted.2.1.1 q below))

/-- The loop from the top down to a threshold: it finds nothing when all of
these levels are empty, otherwise it takes the front of the highest non-empty
one. -/
theorem popFirst_levelsDownTo (pi : PriorityIndex) (threshold : Int) :
    ((∀ p : Level, threshold ≤ (p.val : Int) → pi.contents p = []) ∧
      pi.popFirst (levelsDownTo threshold) = (pi, none)) ∨
    ∃ p e rest, threshold ≤ (p.val : Int) ∧ pi.contents p = e :: rest ∧
      (∀ q, p < q → pi.contents q = []) ∧
      pi.popFirst (levelsDownTo threshold) =
        ((pi.setLevel p (pi.levels p).pop.1).addTotal (-1), some e) := by
  rcases pi.popFirst_cases (levelsDownTo threshold) with
    ⟨empty, nothing⟩ | ⟨before, p, after, e, rest, split, empty, queued, front, index⟩
  · exact .inl ⟨fun p reaches => empty p (mem_levelsDownTo.mpr reaches), nothing⟩
  · have reaches : threshold ≤ (p.val : Int) := by
      rw [← mem_levelsDownTo, split]
      simp
    exact .inr ⟨p, e, rest, reaches, queued,
      fun q above => empty q (above_tried reaches split above), Prod.ext index front⟩

theorem Refines.pop (same : pi.Refines capacity queue) :
    pi.popHighest.2 = (StableQueue.pop queue).2.map Prod.snd ∧
      pi.popHighest.1.Refines capacity (StableQueue.pop queue).1 := by
  have kept : pi.popHighest.1.Capacity capacity :=
    (pi.popFirst_takesFront _).capacity same.capacity
  rcases pi.popFirst_levelsDownTo 0 with
    ⟨empty, nothing⟩ | ⟨p, e, rest, -, queued, above, taken⟩
  · rcases StableQueue.empty_or_highest queue with rfl | ⟨k, a, later, queued, -⟩
    · rw [popHighest, nothing]
      exact ⟨rfl, same⟩
    · have none_queued := empty k (by omega)
      rw [same.contents, queued] at none_queued
      cases none_queued
  · have index := pop_contents queued
    rw [popHighest, taken] at kept ⊢
    rw [same.contents] at queued above index
    have popped := StableQueue.pop_of_bucket queued above
    rw [popped]
    refine ⟨rfl, kept, ?_⟩
    rw [index, StableQueue.bucket_eraseP, queued]
    rfl

theorem Refines.step (same : pi.Refines capacity queue) (event : DrainEvent) :
    (pi.drainStep event).Refines capacity (pendingStep capacity queue event) := by
  cases event with
  | add call => exact same.add call
  | popHighest => exact same.pop.2

theorem Refines.run (events : List DrainEvent) :
    ∀ {pi : PriorityIndex} {queue : List (Level × PendingEntry)}, pi.Refines capacity queue →
      (Runs.final drainStep pi events).Refines capacity
        (Runs.final (pendingStep capacity) queue events) := by
  induction events with
  | nil => intro pi queue same; exact same
  | cons event rest ih => intro pi queue same; exact ih (same.step event)

theorem pending_adds (calls : List AddCall) : ∀ queue : List (Level × PendingEntry),
    Runs.final (pendingStep 0) queue (calls.map .add) = queue ++ calls.map AddCall.item := by
  induction calls with
  | nil => intro queue; exact (List.append_nil queue).symm
  | cons call rest ih =>
    intro queue
    have room : ¬ BoundedQueue.Full 0 (StableQueue.bucket queue call.item.1) :=
      fun full => absurd full.1 (lt_irrefl 0)
    have pushed : pendingStep 0 queue (.add call) = queue ++ [call.item] := by
      rw [pendingStep, StableQueue.push, if_neg room]
    rw [List.map_cons, Runs.final_cons, pushed, ih, List.map_cons, List.append_assoc]
    rfl

/-- Popping an unbounded index until it is empty returns all added entries,
sorted stably by level; and after any additions and pops, on an index of any
capacity, the next pop returns the first-inserted pending entry of the highest
non-empty level. -/
theorem drain_sorts_stably :
    (∀ (maxPerLevel : Int) (calls : List AddCall) (fuel : Nat), maxPerLevel ≤ 0 →
      calls.length < fuel →
      ∃ sorted : List (Level × PendingEntry),
        StableQueue.StablySorted (calls.map AddCall.item) sorted ∧
        StableQueue.drain popHighest fuel (calls.foldl addCall (newPriorityIndex maxPerLevel)) =
          some (sorted.map Prod.snd)) ∧
    ∀ (maxPerLevel : Int) (events : List DrainEvent),
      (Runs.final drainStep (newPriorityIndex maxPerLevel) events).popHighest.2 =
        (StableQueue.pop
          (Runs.final (pendingStep maxPerLevel.toNat) [] events)).2.map Prod.snd := by
  refine ⟨?_, fun maxPerLevel events => ((refines_new maxPerLevel).run events).pop.1⟩
  intro maxPerLevel calls fuel unbounded enough
  have start := refines_new maxPerLevel
  rw [Int.toNat_of_nonpos unbounded] at start
  have added := start.run (calls.map .add)
  rw [pending_adds, List.nil_append] at added
  have index : Runs.final drainStep (newPriorityIndex maxPerLevel) (calls.map .add) =
      calls.foldl addCall (newPriorityIndex maxPerLevel) := List.foldl_map
  rw [index] at added
  obtain ⟨sorted, stable, drained⟩ :=
    StableQueue.drain_pop_sorts fuel (calls.map AddCall.item) (by simpa using enough)
  refine ⟨sorted, stable, ?_⟩
  have agrees := StableQueue.drain_simulates Prod.snd (Refines 0)
    (fun _ _ same => same.pop) fuel _ _ added
  rw [agrees, drained]
  rfl

def sampleAdds : List AddCall :=
  [⟨2, 10, 5⟩, ⟨-1, 11, 6⟩, ⟨12, 12, 7⟩, ⟨2, 13, 8⟩, ⟨9, 14, 9⟩]

/-- Priority `12` is clamped to level `9` and `-1` to level `0`. -/
theorem drain_sorts_stably_sample :
    (∃ sorted : List (Level × PendingEntry),
      StableQueue.StablySorted (sampleAdds.map AddCall.item) sorted ∧
      StableQueue.drain popHighest 6 (sampleAdds.foldl addCall (newPriorityIndex 0)) =
        some (sorted.map Prod.snd)) ∧
    StableQueue.drain popHighest 6 (sampleAdds.foldl addCall (newPriorityIndex 0)) =
      some [⟨12, 7⟩, ⟨14, 9⟩, ⟨10, 5⟩, ⟨13, 8⟩, ⟨11, 6⟩] :=
  ⟨drain_sorts_stably.1 0 sampleAdds 6 (by decide) (by decide), by decide +kernel⟩

end PriorityIndex

end NyaQueue
