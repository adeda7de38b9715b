import NyaQueue.ExactFloat
import NyaQueue.Lib.Slice

/-!
# The state vector of the DQN balancer

Model of `buildStateInto` (`pkg/balancer/dqn.go`) up to the normalisation, and of
the calls that store what it reads.  The vector has a region of `n` places each for
loads, predicted loads and publishes in flight, and two places for the message rate
and size.  The copies of the stored loads and predictions are bounded by the end of
the vector, not by their region; what they write behind it stays unless the next
region is filled up to there.
-/

set_option autoImplicit false

namespace NyaQueue

open FloatArith

variable {F : Type} [FloatConv F]

/-- What the balancer has stored of the metrics, and its publishes in flight. -/
structure DqnView (F : Type) where
  numPartitions : Nat
  loads : List F
  predictedLoads : List F
  msgRate : F
  avgMsgSize : F
  inflight : Option (List Int64)

/-- The part of the metrics that is stored. -/
structure LoadMetrics (F : Type) where
  partitionLoads : List F
  predictedLoads : List F
  msgRate : F
  avgMsgSize : F

namespace DqnView

/-- `NewDQNBalancer` -/
def new (numPartitions : Nat) : DqnView F where
  numPartitions := numPartitions
  loads := List.replicate numPartitions (literal 0)
  predictedLoads := List.replicate numPartitions (literal 0)
  msgRate := literal 0
  avgMsgSize := literal 0
  inflight := none

/-- The copies that `OnMetrics` makes. -/
def onMetrics (d : DqnView F) (m : LoadMetrics F) : DqnView F :=
  { d with
    loads := if 0 < m.partitionLoads.length then m.partitionLoads else d.loads
    predictedLoads := if 0 < m.predictedLoads.length then m.predictedLoads else d.predictedLoads
    msgRate := m.msgRate
    avgMsgSize := m.avgMsgSize }

def setPredictedLoads (d : DqnView F) (predicted : List F) : DqnView F :=
  { d with predictedLoads := predicted }

def stateSize (d : DqnView F) : Nat := d.numPartitions * 3 + 2

/-- The counters, none if there is no array. -/
def counters (d : DqnView F) : List Int64 := d.inflight.getD []

def scaled (count : Int64) : F := div (ofInt count.toInt) (literal 10000)

/-- `buildStateInto` before the normalisation; `dst` has what the last tick left. -/
def buildStateInto (d : DqnView F) (dst : List F) : List F :=
  let dst := dst.map fun _ => literal 0
  let dst := Slice.overwrite dst 0 d.loads
  let dst := Slice.overwrite dst d.numPartitions d.predictedLoads
  -- the loop ends at the last partition or the last counter
  let dst := Slice.overwrite dst (d.numPartitions * 2)
    ((d.counters.take d.numPartitions).map scaled)
  let idx := d.numPartitions * 3
  let dst := if idx < dst.length then dst.set idx (div d.msgRate (literal 100000)) else dst
  if idx + 1 < dst.length then dst.set (idx + 1) (div d.avgMsgSize (literal 1024)) else dst

/-- The layout of the vector. -/
structure Layout (d : DqnView F) (state : List F) : Prop where
  loads : ∀ i < d.numPartitions, state[i]? = some (d.loads.getD i (literal 0))
  predicted : ∀ i < d.numPartitions,
    state[d.numPartitions + i]? = some (d.predictedLoads.getD i (literal 0))
  inflight : ∀ i < d.numPartitions,
    state[d.numPartitions * 2 + i]? = some ((d.counters.map scaled).getD i (literal 0))
  rate : state[d.numPartitions * 3]? = some (div d.msgRate (literal 100000))
  size : state[d.numPartitions * 3 + 1]? = some (div d.avgMsgSize (literal 1024))

/-- What was copied behind a region is zero wherever the next region is not filled. -/
structure NothingSpills (d : DqnView F) : Prop where
  loads : ∀ i < d.numPartitions, d.predictedLoads.length ≤ i →
    d.loads.getD (d.numPartitions + i) (literal 0) = literal 0
  predicted : ∀ i < d.numPartitions, d.counters.length ≤ i →
    d.predictedLoads.getD (d.numPartitions + i)
      (d.loads.getD (d.numPartitions * 2 + i) (literal 0)) = literal 0

/-! ## What stands at each place -/

section Places

variable (d : DqnView F) {dst : List F} (size : dst.length = d.stateSize)

/-- The vector after the three copies. -/
def copied (dst : List F) : List F :=
  Slice.overwrite (Slice.overwrite (Slice.overwrite (dst.map fun _ => literal 0) 0 d.loads)
    d.numPartitions d.predictedLoads) (d.numPartitions * 2)
    ((d.counters.take d.numPartitions).map scaled)

include size

theorem length_loads :
    (Slice.overwrite (dst.map fun _ => literal 0) 0 d.loads).length = d.stateSize := by
  rw [Slice.length_overwrite (Nat.zero_le _), List.length_map, size]

theorem length_predicted : (Slice.overwrite (Slice.overwrite (dst.map fun _ => literal 0) 0 d.loads)
    d.numPartitions d.predictedLoads).length = d.stateSize := by
  have room : d.numPartitions ≤ d.stateSize := by
    unfold stateSize
    omega
  rw [Slice.length_overwrite (by rw [d.length_loads size]; exact room), d.length_loads size]

theorem length_copied : (d.copied dst).length = d.stateSize := by
  have room : d.numPartitions * 2 ≤ d.stateSize := by
    unfold stateSize
    omega
  rw [copied, Slice.length_overwrite (by rw [d.length_predicted size]; exact room),
    d.length_predicted size]

theorem getElem?_loads {i : Nat} (valid : i < d.stateSize) :
    (Slice.overwrite (dst.map fun _ => literal 0) 0 d.loads)[i]? =
      some (d.loads.getD i (literal 0)) := by
  have zero : (dst.map fun _ => (literal 0 : F))[i]? = some (literal 0) := by
    rw [List.getElem?_map, List.getElem?_eq_getElem (by omega)]
    rfl
  rw [Slice.getElem?_overwrite_from d.loads (Nat.zero_le i) zero, Nat.sub_zero,
    List.getD_eq_getElem?_getD]

theorem getElem?_predicted {i : Nat} (later : d.numPartitions ≤ i) (valid : i < d.stateSize) :
    (Slice.overwrite (Slice.overwrite (dst.map fun _ => literal 0) 0 d.loads)
      d.numPartitions d.predictedLoads)[i]? =
      some (d.predictedLoads.getD (i - d.numPartitions) (d.loads.getD i (literal 0))) := by
  rw [Slice.getElem?_overwrite_from d.predictedLoads later (d.getElem?_loads size valid),
    ← List.getD_eq_getElem?_getD]

/-- After the copies a region has what was copied to it, then what was copied past the
end of the region before. -/
theorem getElem?_copied {i : Nat} (inside : i < d.numPartitions) :
    (d.copied dst)[i]? = some (d.loads.getD i (literal 0)) ∧
    (d.copied dst)[d.numPartitions + i]? = some (d.predictedLoads.getD i
      (d.loads.getD (d.numPartitions + i) (literal 0))) ∧
    (d.copied dst)[d.numPartitions * 2 + i]? = some ((d.counters.map scaled).getD i
      (d.predictedLoads.getD (d.numPartitions + i)
        (d.loads.getD (d.numPartitions * 2 + i) (literal 0)))) := by
  have whole : d.stateSize = d.numPartitions * 3 + 2 := rfl
  have first : d.numPartitions ≤
      (Slice.overwrite (dst.map fun _ => literal 0) 0 d.loads).length := by
    rw [d.length_loads size]
    omega
  have second : d.numPartitions * 2 ≤
      (Slice.overwrite (Slice.overwrite (dst.map fun _ => literal 0) 0 d.loads)
        d.numPartitions d.predictedLoads).length := by
    rw [d.length_predicted size]
    omega
  refine ⟨?_, ?_, ?_⟩
  · rw [copied, Slice.getElem?_overwrite_before second _ (by omega),
      Slice.getElem?_overwrite_before first _ inside, d.getElem?_loads size (by omega)]
  · rw [copied, Slice.getElem?_overwrite_before second _ (by omega),
      d.getElem?_predicted size (by omega) (by omega), Nat.add_sub_cancel_left]
  · have reach : d.numPartitions * 2 + i - d.numPartitions = d.numPartitions + i := by omega
    have taken : ((d.counters.take d.numPartitions).map (scaled (F := F)))[i]? =
        (d.counters.map scaled)[i]? := by
      rw [List.getElem?_map, List.getElem?_map, List.getElem?_take_of_lt inside]
    rw [copied, Slice.getElem?_overwrite_from _ (Nat.le_add_right _ _)
      (d.getElem?_predicted size (by omega) (by omega)), Nat.add_sub_cancel_left, reach, taken,
      ← List.getD_eq_getElem?_getD]

theorem buildStateInto_eq : d.buildStateInto dst =
    ((d.copied dst).set (d.numPartitions * 3) (div d.msgRate (literal 100000))).set
      (d.numPartitions * 3 + 1) (div d.avgMsgSize (literal 1024)) := by
  have whole : (d.copied dst).length = d.numPartitions * 3 + 2 := d.length_copied size
  have inside : d.numPartitions * 3 < (d.copied dst).length := by omega
  unfold buildStateInto
  dsimp only
  rw [← copied, if_pos inside, if_pos (by rw [List.length_set]; omega)]

theorem getElem?_buildStateInto {i : Nat} (inside : i < d.numPartitions * 3) :
    (d.buildStateInto dst)[i]? = (d.copied dst)[i]? := by
  rw [d.buildStateInto_eq size, List.getElem?_set_ne (by omega), List.getElem?_set_ne (by omega)]

end Places

omit [FloatConv F] in
theorem getD_eq_getD_iff (xs : List F) (i : Nat) (x y : F) :
    xs.getD i x = xs.getD i y ↔ (xs.length ≤ i → x = y) := by
  rw [List.getD_eq_getElem?_getD, List.getD_eq_getElem?_getD]
  rcases Nat.lt_or_ge i xs.length with inside | past
  · rw [List.getElem?_eq_getElem inside]
    exact ⟨fun _ beyond => absurd inside (Nat.not_lt.mpr beyond), fun _ => rfl⟩
  · rw [List.getElem?_eq_none past]
    exact ⟨fun same _ => same, fun same => same past⟩

/-- The vector has its layout exactly when nothing that was copied behind a region is
left there. -/
theorem layout_iff_nothingSpills (d : DqnView F) {dst : List F}
    (size : dst.length = d.stateSize) :
    d.Layout (d.buildStateInto dst) ↔ d.NothingSpills := by
  have places : ∀ i < d.numPartitions, _ := fun i inside => d.getElem?_copied size inside
  have whole : (d.copied dst).length = d.numPartitions * 3 + 2 := d.length_copied size
  have predicted : ∀ i < d.numPartitions,
      (d.buildStateInto dst)[d.numPartitions + i]? =
          some (d.predictedLoads.getD i (literal 0)) ↔
        (d.predictedLoads.length ≤ i →
          d.loads.getD (d.numPartitions + i) (literal 0) = literal 0) := by
    intro i inside
    rw [d.getElem?_buildStateInto size (by omega), (places i inside).2.1, Option.some_inj,
      getD_eq_getD_iff]
  have inflight : ∀ i < d.numPartitions,
      (d.buildStateInto dst)[d.numPartitions * 2 + i]? =
          some ((d.counters.map scaled).getD i (literal 0)) ↔
        (d.counters.length ≤ i → d.predictedLoads.getD (d.numPartitions + i)
          (d.loads.getD (d.numPartitions * 2 + i) (literal 0)) = literal 0) := by
    intro i inside
    rw [d.getElem?_buildStateInto size (by omega), (places i inside).2.2, Option.some_inj,
      getD_eq_getD_iff, List.length_map]
  constructor
  · intro layout
    exact ⟨fun i inside => (predicted i inside).mp (layout.predicted i inside),
      fun i inside => (inflight i inside).mp (layout.inflight i inside)⟩
  · intro nothing
    refine ⟨?_, fun i inside => (predicted i inside).mpr (nothing.loads i inside),
      fun i inside => (inflight i inside).mpr (nothing.predicted i inside), ?_, ?_⟩
    · intro i inside
      rw [d.getElem?_buildStateInto size (by omega), (places i inside).1]
    · rw [d.buildStateInto_eq size, List.getElem?_set_ne (by omega),
        List.getElem?_set_self (by omega)]
    · rw [d.buildStateInto_eq size, List.getElem?_set_self (by rw [List.length_set]; omega)]

/-- Two partitions with their own loads and predictions, and no publish yet. -/
theorem layout_of_own_loads :
    ((new 2).onMetrics ⟨[1 / 2, 1 / 4], [1 / 3, 1 / 5], 0, 0⟩ : DqnView Rat).Layout
      (((new 2).onMetrics ⟨[1 / 2, 1 / 4], [1 / 3, 1 / 5], 0, 0⟩ : DqnView Rat).buildStateInto
        (List.replicate 8 7)) :=
  (layout_iff_nothingSpills _ rfl).mpr ⟨by decide +kernel, by decide +kernel⟩

/-- The loads of three topics with two partitions each arrive before the first
publish: the loads of the third topic stand where the publishes in flight belong. -/
theorem loads_spill_into_inflight :
    ¬ ((new 2).onMetrics ⟨[1 / 2, 1 / 4, 1 / 2, 1 / 4, 3 / 4, 1], [], 0, 0⟩ : DqnView Rat).Layout
      (((new 2).onMetrics ⟨[1 / 2, 1 / 4, 1 / 2, 1 / 4, 3 / 4, 1], [], 0, 0⟩ :
        DqnView Rat).buildStateInto (List.replicate 8 0)) := by
  intro layout
  exact absurd (layout.inflight 0 (by decide)) (by decide +kernel)

end DqnView

end NyaQueue
