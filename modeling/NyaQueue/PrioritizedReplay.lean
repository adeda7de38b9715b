import NyaQueue.ReplayBuffer
import NyaQueue.Lib.Greatest
import Mathlib.Algebra.BigOperators.Group.List.Basic
import Mathlib.Algebra.Order.BigOperators.Group.List
import Mathlib.Algebra.Order.Field.Basic
import Mathlib.Order.Interval.Set.Basic
import Mathlib.Tactic.Linarith
import Mathlib.Tactic.Positivity

/-!
# The prioritised replay buffer

Model of `PrioritizedReplayBuffer` (`pkg/nn/replay_buffer.go`) in exact arithmetic;
whatever function stands for `math.Pow` and the numbers that `rand.Float64` draws are
arguments.  A draw is compared with the running sum of the weights, so a slot is
picked by the draws between two such sums, and these are as far apart as the slot's
weight.
-/

set_option autoImplicit false

namespace NyaQueue

open CircularBuffer Counter

structure PrioritizedReplayBuffer (F : Type) where
  transitions : List (Transition F)
  priorities : List F
  capacity : Nat
  size : Nat
  writeIdx : Int64
  alpha : F
  maxPriority : F
  transitions_length : transitions.length = capacity
  priorities_length : priorities.length = capacity
  size_le : size ≤ capacity

namespace PrioritizedReplayBuffer

variable {F : Type} [Field F] [LinearOrder F]

/-- `NewPrioritizedReplayBuffer` -/
def new (capacity : Nat) (alpha : F) : PrioritizedReplayBuffer F where
  transitions := List.replicate capacity .zero
  priorities := List.replicate capacity 0
  capacity := capacity
  size := 0
  writeIdx := 0
  alpha := alpha
  maxPriority := 1
  transitions_length := List.length_replicate
  priorities_length := List.length_replicate
  size_le := Nat.zero_le _

/-- `Push`; without a slot for the counter the program stops. -/
def push (b : PrioritizedReplayBuffer F) (t : Transition F) :
    Option (PrioritizedReplayBuffer F) :=
  (slot? b.writeIdx b.capacity).map fun idx =>
    { b with
      transitions := b.transitions.set idx t
      priorities := b.priorities.set idx b.maxPriority
      writeIdx := b.writeIdx + 1
      size := if b.size < b.capacity then b.size + 1 else b.size
      transitions_length := by rw [List.length_set]; exact b.transitions_length
      priorities_length := by rw [List.length_set]; exact b.priorities_length
      size_le := by
        have := b.size_le
        split <;> omega }

/-- Added to an error, so that no priority is zero. -/
def minPriority : F := 1 / 1000000

def updatePriority (b : PrioritizedReplayBuffer F) (idx : Int) (tdError : F) :
    PrioritizedReplayBuffer F :=
  if idx < 0 ∨ b.size ≤ idx then b
  else
    let p := |tdError| + minPriority
    { b with
      priorities := b.priorities.set idx.toNat p
      maxPriority := if b.maxPriority < p then p else b.maxPriority
      priorities_length := by rw [List.length_set]; exact b.priorities_length }

/-! ## Sampling -/

/-- The weights of the slots in use. -/
def probs (pow : F → F → F) (b : PrioritizedReplayBuffer F) : List F :=
  (b.priorities.take b.size).map fun p => pow p b.alpha

/-- The inner loop of `Sample`, with what it knows before slot `j`. -/
def selectFrom (r : F) : (cum : F) → (j idx : Nat) → (probs : List F) → Nat
  | _, _, idx, [] => idx
  | cum, j, _, p :: rest =>
      if r ≤ cum + p then j else selectFrom r (cum + p) (j + 1) j rest

/-- The slot that is picked for `r`. -/
def select (pow : F → F → F) (b : PrioritizedReplayBuffer F) (r : F) : Nat :=
  selectFrom r 0 0 0 (b.probs pow)

/-- What a number from `[0, 1)` is multiplied by. -/
def total (pow : F → F → F) (b : PrioritizedReplayBuffer F) : F :=
  if (b.probs pow).sum = 0 then 1 else (b.probs pow).sum

/-- The importance-sampling weight of a slot, before it is normalised. -/
def importance (pow : F → F → F) (b : PrioritizedReplayBuffer F) (beta : F) (idx : Nat) : F :=
  pow (b.size * ((b.probs pow).getD idx 0 / b.total pow)) (-beta)

/-- `Sample`, with the transitions, their slots and their weights.  A negative size
stops the program at `make`, unless the buffer is empty. -/
def sample (pow : F → F → F) (b : PrioritizedReplayBuffer F) (batchSize : Int) (beta : F)
    (draws : Nat → F) : Option (List (Transition F) × List Nat × List F) :=
  if b.size = 0 then some ([], [], [])
  else if batchSize < 0 then none
  else
    let batchSize := if b.size < batchSize then b.size else batchSize.toNat
    let indices := (List.range batchSize).map fun i => b.select pow (draws i * b.total pow)
    let weights := indices.map (b.importance pow beta)
    let maxWeight := weights.foldl max 0
    some (indices.map fun idx => b.transitions.getD idx .zero, indices,
      if 0 < maxWeight then weights.map (· / maxWeight) else weights)

/-! ## The draws that pick a slot -/

section Select

variable [IsStrictOrderedRing F]

omit [IsStrictOrderedRing F] in
theorem selectFrom_bounds (r : F) {probs : List F} (nonempty : probs ≠ []) :
    ∀ (cum : F) (j idx : Nat), j ≤ selectFrom r cum j idx probs ∧
      selectFrom r cum j idx probs < j + probs.length := by
  induction probs with
  | nil => exact absurd rfl nonempty
  | cons p rest ih =>
    intro cum j idx
    rw [selectFrom, List.length_cons]
    split
    · omega
    · cases rest with
      | nil =>
        rw [selectFrom, List.length_nil]
        omega
      | cons q rest =>
        have later := ih (List.cons_ne_nil q rest) (cum + p) (j + 1) j
        omega

theorem selectFrom_eq_iff (r : F) {probs : List F} (positive : ∀ p ∈ probs, 0 < p) :
    ∀ (cum : F) (j idx i : Nat), r < cum + probs.sum → i < probs.length →
      (selectFrom r cum j idx probs = j + i ↔
        (i = 0 ∨ cum + (probs.take i).sum < r) ∧ r ≤ cum + (probs.take (i + 1)).sum) := by
  induction probs with
  | nil => exact fun _ _ _ _ _ inside => absurd inside (Nat.not_lt_zero _)
  | cons p rest ih =>
    obtain ⟨first, others⟩ := List.forall_mem_cons.mp positive
    have nonneg : ∀ i, 0 ≤ (rest.take i).sum := fun i =>
      List.sum_nonneg fun q member => (others q (List.mem_of_mem_take member)).le
    intro cum j idx i below inside
    rw [List.sum_cons] at below
    rw [selectFrom]
    by_cases reached : r ≤ cum + p
    · rw [if_pos reached]
      cases i with
      | zero => simpa using reached
      | succ i =>
        have := nonneg i
        rw [List.take_succ_cons, List.sum_cons]
        refine iff_of_false (by omega) ?_
        rintro ⟨impossible | above, -⟩
        · cases impossible
        · linarith
    · rw [if_neg reached]
      cases i with
      | zero =>
        have more : rest ≠ [] := by
          rintro rfl
          rw [List.sum_nil] at below
          linarith
        have later := (selectFrom_bounds r more (cum + p) (j + 1) j).1
        refine iff_of_false (by omega) ?_
        rintro ⟨-, impossible⟩
        rw [List.take_succ_cons, List.take_zero, List.sum_cons, List.sum_nil, add_zero]
          at impossible
        exact reached impossible
      | succ i =>
        have next := ih others (cum + p) (j + 1) j i (by linarith)
          (Nat.lt_of_succ_lt_succ inside)
        rw [Nat.add_assoc, Nat.add_comm 1 i] at next
        rw [next, List.take_succ_cons, List.take_succ_cons, List.sum_cons, List.sum_cons,
          ← add_assoc, ← add_assoc]
        refine and_congr_left fun _ => ?_
        cases i with
        | zero =>
          rw [List.take_zero, List.sum_nil, add_zero]
          exact iff_of_true (.inl rfl) (.inr (lt_of_not_ge reached))
        | succ i => simp

omit [Field F] [LinearOrder F] [IsStrictOrderedRing F] in
theorem length_probs (pow : F → F → F) (b : PrioritizedReplayBuffer F) :
    (b.probs pow).length = b.size := by
  have := b.size_le
  rw [probs, List.length_map, List.length_take, b.priorities_length]
  omega

theorem select_interval (pow : F → F → F) (b : PrioritizedReplayBuffer F)
    (positive : ∀ p ∈ b.probs pow, 0 < p) {j : Nat} {p : F} (weight : (b.probs pow)[j]? = some p) :
    Set.Ioo ((b.probs pow).take j).sum (((b.probs pow).take j).sum + p) ⊆
      {r | 0 ≤ r ∧ r < b.total pow ∧ b.select pow r = j} ∧
    {r | 0 ≤ r ∧ r < b.total pow ∧ b.select pow r = j} ⊆
      Set.Icc ((b.probs pow).take j).sum (((b.probs pow).take j).sum + p) := by
  have inside := (List.getElem?_eq_some_iff.mp weight).1
  have nonneg : ∀ {part : List F}, part.Sublist (b.probs pow) → 0 ≤ part.sum := fun some_of =>
    List.sum_nonneg fun q member => (positive q (some_of.subset member)).le
  have upto : ((b.probs pow).take (j + 1)).sum = ((b.probs pow).take j).sum + p := by
    rw [List.take_add_one, weight, List.sum_append]
    simp
  have parts : (b.probs pow).sum =
      ((b.probs pow).take j).sum + p + ((b.probs pow).drop (j + 1)).sum := by
    rw [← upto, ← List.sum_append, List.take_append_drop]
  have before := nonneg (List.take_sublist j _)
  have after := nonneg (List.drop_sublist (j + 1) _)
  have first := positive p (List.mem_of_getElem? weight)
  have sum : b.total pow = (b.probs pow).sum := if_neg (by linarith)
  have picked : ∀ r, r < (b.probs pow).sum → (b.select pow r = j ↔
      (j = 0 ∨ ((b.probs pow).take j).sum < r) ∧ r ≤ ((b.probs pow).take j).sum + p) := by
    intro r below
    have chosen := selectFrom_eq_iff r positive 0 0 0 j (by rwa [zero_add]) inside
    rwa [Nat.zero_add, zero_add, zero_add, upto] at chosen
  rw [sum]
  constructor
  · rintro r ⟨above, below⟩
    have inside' : r < (b.probs pow).sum := by linarith
    exact ⟨by linarith, inside', (picked r inside').mpr ⟨.inr above, below.le⟩⟩
  · rintro r ⟨low, high, chosen⟩
    obtain ⟨start | above, below⟩ := (picked r high).mp chosen
    · subst start
      exact ⟨by simpa using low, below⟩
    · exact ⟨above.le, below⟩

variable {b : PrioritizedReplayBuffer F}

omit [IsStrictOrderedRing F] in
theorem select_lt (pow : F → F → F) (nonempty : 0 < b.size) (r : F) : b.select pow r < b.size := by
  have some_slot : b.probs pow ≠ [] := by
    rw [← List.length_pos_iff, length_probs]
    exact nonempty
  have inside := (selectFrom_bounds r some_slot 0 0 0).2
  rwa [Nat.zero_add, length_probs] at inside

theorem importance_pos {pow : F → F → F} (pow_pos : ∀ x y, 0 < x → 0 < pow x y)
    (positive : ∀ p ∈ b.probs pow, 0 < p) (beta : F) {idx : Nat} (used : idx < b.size) :
    0 < b.importance pow beta idx := by
  have inside : idx < (b.probs pow).length := by rwa [length_probs]
  have weight : 0 < (b.probs pow).getD idx 0 := by
    rw [List.getD, List.getElem?_eq_getElem inside]
    exact positive _ (List.getElem_mem inside)
  have sum : 0 < b.total pow := by
    have nonneg : 0 ≤ (b.probs pow).sum := List.sum_nonneg fun p member => (positive p member).le
    unfold total
    split
    · exact one_pos
    · rename_i nonzero
      exact lt_of_le_of_ne nonneg (Ne.symm nonzero)
  have size : (0 : F) < b.size := by exact_mod_cast Nat.lt_of_le_of_lt (Nat.zero_le idx) used
  exact pow_pos _ _ (mul_pos size (div_pos weight sum))

/-- A batch has the transition of each slot that was picked, and weights relative to
the greatest. -/
theorem sample_spec {pow : F → F → F} (pow_pos : ∀ x y, 0 < x → 0 < pow x y)
    (nonempty : 0 < b.size) (positive : ∀ p ∈ b.probs pow, 0 < p) (batchSize : Nat) (beta : F)
    (draws : Nat → F) :
    ∃ batch indices weights, b.sample pow batchSize beta draws = some (batch, indices, weights) ∧
      indices.length = min batchSize b.size ∧ (∀ idx ∈ indices, idx < b.size) ∧
      batch.map some = indices.map (b.transitions[·]?) ∧ weights.length = indices.length ∧
      (∀ w ∈ weights, 0 < w ∧ w ≤ 1) ∧ (0 < batchSize → 1 ∈ weights) := by
  have count : (if (b.size : Int) < batchSize then b.size else (batchSize : Int).toNat) =
      min batchSize b.size := by
    split <;> omega
  refine ⟨_, _, _, (if_neg nonempty.ne').trans (if_neg (by omega)), ?_⟩
  rw [count]
  have length : ((List.range (min batchSize b.size)).map
      fun i => b.select pow (draws i * b.total pow)).length = min batchSize b.size := by simp
  have used : ∀ idx ∈ (List.range (min batchSize b.size)).map
      fun i => b.select pow (draws i * b.total pow), idx < b.size := by
    intro idx member
    obtain ⟨i, -, rfl⟩ := List.mem_map.mp member
    exact select_lt pow nonempty _
  generalize (List.range (min batchSize b.size)).map
    (fun i => b.select pow (draws i * b.total pow)) = indices at length used
  have weigh : ∀ w ∈ indices.map (b.importance pow beta), 0 < w := by
    intro w member
    obtain ⟨idx, inside, rfl⟩ := List.mem_map.mp member
    exact importance_pos pow_pos positive beta (used idx inside)
  refine ⟨length, used, ?_, ?_, Greatest.relative_bounds weigh, ?_⟩
  · rw [List.map_map]
    apply List.map_congr_left
    intro idx member
    have valid : idx < b.transitions.length := by
      rw [b.transitions_length]
      exact Nat.lt_of_lt_of_le (used idx member) b.size_le
    simp [List.getD, List.getElem?_eq_getElem valid]
  · exact (Greatest.length_relative _).trans (List.length_map _)
  · intro some_entry
    refine Greatest.one_mem_relative weigh ?_
    rw [← List.length_pos_iff, List.length_map, length]
    omega

/-- A batch of five from a buffer of two. -/
theorem sample_spec_two :
    let b : PrioritizedReplayBuffer Rat :=
      ⟨[⟨[1], [0], 1, [2], false⟩, ⟨[2], [0], 1, [3], false⟩], [1, 3], 2, 2, 2, 1, 3, rfl, rfl,
        Nat.le_refl 2⟩
    ∃ batch indices weights,
      b.sample (fun p _ => p) (5 : Nat) 1 (fun _ => 1 / 2) = some (batch, indices, weights) ∧
        indices.length = 2 ∧ 1 ∈ weights := by
  intro b
  obtain ⟨batch, indices, weights, sampled, length, -, -, -, -, one⟩ :=
    @sample_spec Rat _ _ _ b (fun p _ => p) (fun _ _ positive => positive) (by decide)
      (by decide +kernel) 5 1 fun _ => 1 / 2
  exact ⟨batch, indices, weights, sampled, length, one (by decide)⟩

end Select

/-! ## Reachable buffers -/

end PrioritizedReplayBuffer

/-- The calls that change a buffer. -/
inductive PrioritizedCall (F : Type) where
  | push (t : Transition F)
  | updatePriority (idx : Int) (tdError : F)

namespace PrioritizedReplayBuffer

variable {F : Type} [Field F] [LinearOrder F]

def call (b : PrioritizedReplayBuffer F) : PrioritizedCall F → Option (PrioritizedReplayBuffer F)
  | .push t => b.push t
  | .updatePriority idx tdError => some (b.updatePriority idx tdError)

def run (capacity : Nat) (alpha : F) (calls : List (PrioritizedCall F)) :
    Option (PrioritizedReplayBuffer F) :=
  calls.foldlM call (new capacity alpha)

/-- What was pushed. -/
def pushes {F : Type} (calls : List (PrioritizedCall F)) : List (Transition F) :=
  calls.filterMap fun
    | .push t => some t
    | .updatePriority _ _ => none

instance transitionInhabited : Inhabited (Transition F) := ⟨.zero⟩

/-- The buffer after some pushes. -/
structure After (capacity : Nat) (pushed : List (Transition F)) (b : PrioritizedReplayBuffer F) :
    Prop where
  capacity_eq : b.capacity = capacity
  counted : b.writeIdx = Int64.ofNat pushed.length
  valid : ∀ k < pushed.length, (slot? (Int64.ofNat k) capacity).isSome
  size_eq : b.size = min pushed.length capacity
  latest : Latest b.transitions pushed
  maxPriority_pos : 0 < b.maxPriority
  priority_pos : ∀ i < b.size, ∃ p, b.priorities[i]? = some p ∧ 0 < p

section Run

variable [IsStrictOrderedRing F] {capacity : Nat} {pushed : List (Transition F)}
  {b b' : PrioritizedReplayBuffer F}

theorem after_new (capacity : Nat) (alpha : F) : After capacity [] (new capacity alpha) where
  capacity_eq := rfl
  counted := rfl
  valid := fun _ impossible => absurd impossible (Nat.not_lt_zero _)
  size_eq := (Nat.zero_min capacity).symm
  latest := latest_nil _
  maxPriority_pos := one_pos
  priority_pos := fun _ impossible => absurd impossible (Nat.not_lt_zero _)

omit [IsStrictOrderedRing F] in
theorem After.push (after : After capacity pushed b) {t : Transition F}
    (done : b.push t = some b') : After capacity (pushed ++ [t]) b' := by
  obtain ⟨idx, slot, rfl⟩ := Option.map_eq_some_iff.mp done
  have length : (pushed ++ [t]).length = pushed.length + 1 := by simp
  rw [after.counted, after.capacity_eq] at slot
  have valid : ∀ k < pushed.length + 1, (slot? (Int64.ofNat k) capacity).isSome := by
    intro k inside
    rcases Nat.lt_succ_iff_lt_or_eq.mp inside with old | rfl
    · exact after.valid k old
    · rw [slot]
      rfl
  have turn : idx = pushed.length % capacity :=
    Option.some.inj (slot.symm.trans (slot?_in_turn valid _ (Nat.lt_succ_self _)))
  have inside : idx < b.priorities.length := by
    rw [b.priorities_length, after.capacity_eq]
    exact lt_of_slot? slot
  have size := after.size_eq
  have some_slot : 0 < capacity := by
    rw [b.priorities_length, after.capacity_eq] at inside
    omega
  refine ⟨after.capacity_eq, ?_, ?_, ?_, ?_, after.maxPriority_pos, ?_⟩
  · rw [length, ofNat_succ, ← after.counted]
  · rwa [length]
  · dsimp only
    rw [length, after.capacity_eq]
    split <;> omega
  · have latest := after.latest.push t
    rwa [b.transitions_length, after.capacity_eq, ← turn] at latest
  · dsimp only
    intro i used
    by_cases here : idx = i
    · rw [← here]
      exact ⟨_, List.getElem?_set_self inside, after.maxPriority_pos⟩
    · rw [List.getElem?_set_ne here]
      refine after.priority_pos i ?_
      -- a slot that comes into use is the one that is written
      rw [after.capacity_eq] at used
      by_contra fresh
      have early : pushed.length < capacity := by
        split at used <;> omega
      rw [Nat.mod_eq_of_lt early] at turn
      split at used <;> omega

theorem abs_add_minPriority_pos (tdError : F) : 0 < |tdError| + minPriority := by
  unfold minPriority
  positivity

theorem After.updatePriority (after : After capacity pushed b) (idx : Int) (tdError : F) :
    After capacity pushed (b.updatePriority idx tdError) := by
  have new : 0 < |tdError| + minPriority := abs_add_minPriority_pos tdError
  unfold PrioritizedReplayBuffer.updatePriority
  by_cases outside : idx < 0 ∨ (b.size : Int) ≤ idx
  · rw [if_pos outside]
    exact after
  · rw [if_neg outside]
    refine ⟨after.capacity_eq, after.counted, after.valid, after.size_eq, after.latest, ?_, ?_⟩
    · dsimp only
      split
      · exact new
      · exact after.maxPriority_pos
    · intro i used
      by_cases here : idx.toNat = i
      · have inside : idx.toNat < b.priorities.length := by
          have := b.size_le
          rw [b.priorities_length]
          omega
        rw [← here]
        exact ⟨_, List.getElem?_set_self inside, new⟩
      · dsimp only
        rw [List.getElem?_set_ne here]
        exact after.priority_pos i used

theorem after_run {alpha : F} (calls : List (PrioritizedCall F)) :
    ∀ {b : PrioritizedReplayBuffer F}, run capacity alpha calls = some b →
      After capacity (pushes calls) b := by
  induction calls using List.reverseRecOn with
  | nil =>
    intro b ran
    cases ran
    exact after_new capacity alpha
  | append_singleton calls c ih =>
    intro b' ran
    unfold run at ran
    rw [List.foldlM_append] at ran
    obtain ⟨b, before, last⟩ := Option.bind_eq_some_iff.mp ran
    rw [List.foldlM_cons] at last
    obtain ⟨b'', done, same⟩ := Option.bind_eq_some_iff.mp last
    cases same
    rw [pushes, List.filterMap_append]
    cases c with
    | push t => exact (ih before).push done
    | updatePriority idx tdError =>
      cases done
      have kept := (ih before).updatePriority idx tdError
      rwa [pushes, ← List.append_nil (List.filterMap _ calls)] at kept

end Run

/-- Where the weights are positive, the draws that pick a slot form an interval as long
as its weight; and in every buffer that pushes and updates lead to, a slot in use holds
the transition of the last push to it and a positive priority. -/
theorem sampling_proportional [IsStrictOrderedRing F] (pow : F → F → F) :
    (∀ b : PrioritizedReplayBuffer F, 0 < b.size → (∀ p ∈ b.probs pow, 0 < p) →
      ∀ j < b.size, ∃ p lo, (b.probs pow)[j]? = some p ∧
        Set.Ioo lo (lo + p) ⊆ {r | 0 ≤ r ∧ r < b.total pow ∧ b.select pow r = j} ∧
        {r | 0 ≤ r ∧ r < b.total pow ∧ b.select pow r = j} ⊆ Set.Icc lo (lo + p)) ∧
    ∀ capacity alpha calls, ∀ b : PrioritizedReplayBuffer F, run capacity alpha calls = some b →
      ∀ slot < b.size,
        (∃ k < (pushes calls).length, k % capacity = slot ∧
          b.transitions[slot]? = (pushes calls)[k]? ∧
          ∀ j < (pushes calls).length, j % capacity = slot → j ≤ k) ∧
        ∃ p, b.priorities[slot]? = some p ∧ 0 < p := by
  constructor
  · intro b _ positive j used
    have inside : j < (b.probs pow).length := by rwa [length_probs]
    have weight := List.getElem?_eq_getElem inside
    exact ⟨_, _, weight, select_interval pow b positive weight⟩
  · intro capacity alpha calls b ran slot used
    have after := after_run calls ran
    have width : b.transitions.length = capacity :=
      b.transitions_length.trans after.capacity_eq
    have written : slot < min (pushes calls).length b.transitions.length := by
      rw [width, ← after.size_eq]
      exact used
    have last := after.latest.exists_last written
    rw [width] at last
    exact ⟨last, after.priority_pos slot used⟩

/-- Two pushes and an update, with weights that are the priorities themselves. -/
theorem sampling_proportional_two : ∃ b : PrioritizedReplayBuffer Rat,
    run 2 1 [.push ⟨[1], [0], 1, [2], false⟩, .push ⟨[2], [0], 1, [3], false⟩,
      .updatePriority 1 3] = some b ∧
    b.probs (fun p _ => p) = [1, 3000001 / 1000000] ∧
    (∃ p lo, (b.probs fun p _ => p)[1]? = some p ∧
      Set.Ioo lo (lo + p) ⊆
        {r | 0 ≤ r ∧ r < b.total (fun p _ => p) ∧ b.select (fun p _ => p) r = 1} ∧
      {r | 0 ≤ r ∧ r < b.total (fun p _ => p) ∧ b.select (fun p _ => p) r = 1} ⊆
        Set.Icc lo (lo + p)) ∧
    ∃ p, b.priorities[1]? = some p ∧ 0 < p := by
  refine ⟨_, rfl, by decide +kernel, ?_, ?_⟩
  · exact (sampling_proportional fun p _ => p).1 _ (by decide) (by decide +kernel) 1 (by decide)
  · exact ((sampling_proportional fun p _ => p).2 2 1
      [.push ⟨[1], [0], 1, [2], false⟩, .push ⟨[2], [0], 1, [3], false⟩, .updatePriority 1 3]
      _ rfl 1 (by decide)).2

end PrioritizedReplayBuffer

/-! ## The exponent of the weights -/

structure BetaSchedule (F : Type) where
  start : F
  final : F
  steps : Int
  current : Nat

namespace BetaSchedule

variable {F : Type} [Field F] [LinearOrder F]

/-- `NewBetaSchedule` -/
def new (start final : F) (steps : Int) : BetaSchedule F := ⟨start, final, steps, 0⟩

def next (b : BetaSchedule F) : F × BetaSchedule F :=
  if b.steps ≤ 0 then (b.final, b)
  else
    let frac := (b.current : F) / b.steps
    let frac := if 1 < frac then 1 else frac
    (b.start + (b.final - b.start) * frac, { b with current := b.current + 1 })

/-- The value of the call after `k` others. -/
def value (start final : F) (steps : Int) (k : Nat) : F :=
  ((fun b => b.next.2)^[k] (new start final steps)).next.1

end BetaSchedule

end NyaQueue
