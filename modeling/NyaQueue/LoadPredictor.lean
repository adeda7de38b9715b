import NyaQueue.MetricsCollector
import NyaQueue.Lib.CircularBuffer
import Mathlib.Data.Nat.Sqrt
import Mathlib.Data.List.AList

/-!
# Load predictions and backpressure

Model of `pkg/broker/load_predictor.go` and `pkg/broker/backpressure.go`.  The
predictor keeps the last loads of each partition in a ring and extrapolates them
with an autoregression whose coefficients come from the Levinson–Durbin recursion;
the backpressure controller compares what it is given with a threshold.
Arithmetic is exact.  The order in which the map of rings is walked is an input.
-/

set_option autoImplicit false

namespace NyaQueue

/-! ## The ring -/

/-- `RingBuffer`; `Push` on one without slots would panic. -/
structure RingBuffer where
  data : List Rat
  writeIdx : Nat
  nonempty : 0 < data.length

namespace RingBuffer

def new (size : Nat) (positive : 0 < size) : RingBuffer where
  data := List.replicate size 0
  writeIdx := 0
  nonempty := by rwa [List.length_replicate]

def push (rb : RingBuffer) (v : Rat) : RingBuffer where
  data := rb.data.set (rb.writeIdx % rb.data.length) v
  writeIdx := rb.writeIdx + 1
  nonempty := by
    rw [List.length_set]
    exact rb.nonempty

def copyInto (rb : RingBuffer) (n : Nat) : List Rat :=
  if rb.writeIdx ≤ rb.data.length then rb.data.take n
  else
    let start := rb.writeIdx % rb.data.length
    let tail := min (rb.data.length - start) n
    (rb.data.drop start).take tail ++ rb.data.take (n - tail)

/-- `ValuesInto` a slice of the given length. -/
def valuesInto (rb : RingBuffer) (room : Nat) : List Rat :=
  rb.copyInto (min (min rb.writeIdx rb.data.length) room)

@[simp] theorem length_push (rb : RingBuffer) (v : Rat) :
    (rb.push v).data.length = rb.data.length := List.length_set

/-- The ring holds the last of the values pushed, in their order. -/
structure Holds (rb : RingBuffer) (pushed : List Rat) : Prop where
  written : rb.writeIdx = pushed.length
  slots : CircularBuffer.window rb.data ((rb.writeIdx - rb.data.length) % rb.data.length)
    (min rb.writeIdx rb.data.length) = pushed.drop (pushed.length - rb.data.length)

theorem holds_new (size : Nat) (positive : 0 < size) : (new size positive).Holds [] :=
  ⟨rfl, by simp [new, CircularBuffer.window]⟩

variable {rb : RingBuffer} {pushed : List Rat}

theorem Holds.latest (holds : rb.Holds pushed) :
    CircularBuffer.Latest rb.data pushed := by
  have slots := holds.slots
  rwa [holds.written] at slots

theorem Holds.push (holds : rb.Holds pushed) (v : Rat) :
    (rb.push v).Holds (pushed ++ [v]) := by
  have written : (rb.push v).writeIdx = (pushed ++ [v]).length := by
    simp [RingBuffer.push, holds.written]
  have latest := holds.latest.push v
  refine ⟨written, ?_⟩
  rw [written]
  rwa [← holds.written] at latest

theorem Holds.valuesInto_room (holds : rb.Holds pushed) (room : Nat) :
    rb.valuesInto room = (pushed.drop (pushed.length - rb.data.length)).take room := by
  have latest := holds.latest
  have all : (pushed.drop (pushed.length - rb.data.length)).take room =
      (pushed.drop (pushed.length - rb.data.length)).take
        (min (min pushed.length rb.data.length) room) := by
    apply List.take_eq_take_iff.mpr
    rw [List.length_drop]
    omega
  rw [all, RingBuffer.valuesInto, copyInto, holds.written]
  by_cases early : pushed.length ≤ rb.data.length
  · have front := congrArg (List.take (min (min pushed.length rb.data.length) room))
      (latest.take early)
    rw [List.take_take, Nat.min_eq_left (by omega)] at front
    rw [if_pos early, Nat.sub_eq_zero_of_le early, List.drop_zero, front]
  · rw [if_neg early]
    exact latest.take_pieces rb.nonempty (by omega) rfl rfl (by omega)

theorem Holds.valuesInto (holds : rb.Holds pushed) :
    rb.valuesInto rb.data.length = pushed.drop (pushed.length - rb.data.length) := by
  rw [holds.valuesInto_room, List.take_of_length_le]
  rw [List.length_drop]
  omega

end RingBuffer

/-! ## The autoregression -/

namespace Autoregression

/-- Below this a variance counts as zero. -/
def tiny : Rat := 1 / 1000000000000000

def mean (vals : List Rat) : Rat := vals.sum / vals.length

/-- `r[lag]` -/
def autocovariance (vals : List Rat) (mean : Rat) (lag : Nat) : Rat :=
  (List.zipWith (fun v earlier => (v - mean) * (earlier - mean)) (vals.drop lag) vals).sum /
    vals.length

/-- The loop over `m`, with `a` of length `m`. -/
def levinson (r : Nat → Rat) : Nat → List Rat → Rat → List Rat
  | 0, a, _ => a
  | left + 1, a, e =>
      if e < tiny then a
      else
        let m := a.length
        let k := (r (m + 1) - (a.mapIdx fun j x => x * r (m - j)).sum) / e
        levinson r left (List.zipWith (fun x y => x - k * y) a a.reverse ++ [k]) (e * (1 - k * k))

def yuleWalker (vals : List Rat) (mean : Rat) (p : Nat) : Option (List Rat) :=
  let r := autocovariance vals mean
  if r 0 < tiny then none
  else
    let first := r 1 / r 0
    some (levinson r (p - 1) [first] (r 0 * (1 - first * first)))

def clamp (x : Rat) : Rat := if x < 0 then 0 else if 1 < x then 1 else x

/-- The steps ahead; `recent` has the centred values, the last one first. -/
def extrapolate (coeffs : List Rat) (mean : Rat) : Nat → List Rat → List Rat
  | 0, _ => []
  | left + 1, recent =>
      let pred := (List.zipWith (· * ·) coeffs recent).sum
      clamp (pred + mean) :: extrapolate coeffs mean left (pred :: recent)

/-- The order of the model: the integer square root of the number of values, at
most a quarter of the window and at least one. -/
def order (window n : Nat) : Nat := min n.sqrt (max 1 (window / 4))

/-- `arPredictInto` -/
def predict (window : Nat) (vals : List Rat) (horizon : Nat) : List Rat :=
  let n := vals.length
  if n = 0 then List.replicate horizon 0
  else
    let mean := mean vals
    let p := order window n
    if p < 1 ∨ n < 2 * p then List.replicate horizon mean
    else
      match yuleWalker vals mean p with
      | none => List.replicate horizon mean
      | some coeffs =>
          extrapolate coeffs mean horizon (vals.map fun v => v - mean).reverse

end Autoregression

/-! ## The predictor -/

structure PartitionPrediction where
  partitionID : Nat
  current : Rat
  predicted : List Rat
  deriving DecidableEq

/-- `PredictAll` takes the first step, or the present load. -/
def PartitionPrediction.next (p : PartitionPrediction) : Rat := p.predicted.headD p.current

structure LoadPredictor where
  window : Nat
  horizon : Nat
  positive : 0 < window
  history : AList fun _ : Nat => RingBuffer
  predictions : List PartitionPrediction

namespace LoadPredictor

def new (window horizon : Nat) (positive : 0 < window) : LoadPredictor where
  window := window
  horizon := horizon
  positive := positive
  history := ∅
  predictions := []

/-- The ring of a partition, made on demand. -/
def ring (lp : LoadPredictor) (id : Nat) : RingBuffer :=
  (lp.history.lookup id).getD (.new lp.window lp.positive)

def push (lp : LoadPredictor) (id : Nat) (load : Rat) : LoadPredictor :=
  { lp with history := lp.history.insert id ((lp.ring id).push load) }

/-- What is predicted of a partition from the values in its ring. -/
def predictionOf (window horizon id : Nat) (vals : List Rat) : PartitionPrediction where
  partitionID := id
  current := vals.getLastD 0
  predicted := Autoregression.predict window vals horizon

/-- `predict`, where `order` has the partitions that `Range` visits. -/
def predict (lp : LoadPredictor) (order : List Nat) : LoadPredictor :=
  { lp with
    predictions := order.filterMap fun id => (lp.history.lookup id).map fun rb =>
      predictionOf lp.window lp.horizon id (rb.valuesInto lp.window) }

def update (lp : LoadPredictor) (loads : List Rat) (order : List Nat) : LoadPredictor :=
  (loads.zipIdx.foldl (fun lp entry => lp.push entry.2 entry.1) lp).predict order

def predictAll (lp : LoadPredictor) : List Rat := lp.predictions.map PartitionPrediction.next

def removePartition (lp : LoadPredictor) (id : Nat) : LoadPredictor :=
  { lp with history := lp.history.erase id }

end LoadPredictor

/-! ## Backpressure -/

inductive BackpressureState where
  | open
  | warn
  | closed
  deriving DecidableEq

structure SystemSignal where
  avgPredictedLoad : Rat
  walFlushLatencyMs : Rat

structure BackpressureController where
  threshold : Rat
  predicted : Option (List Rat)
  systemSignal : Option SystemSignal

namespace BackpressureController

def defaultThreshold : Rat := 85 / 100

def warnRatio : Rat := 9 / 10

def flushLatencyWarnMs : Rat := 100

def new (threshold : Rat) : BackpressureController where
  threshold := if threshold ≤ 0 then defaultThreshold else threshold
  predicted := none
  systemSignal := none

def updatePredictions (bp : BackpressureController) (predicted : List Rat) :
    BackpressureController :=
  { bp with predicted := some predicted }

def updateSystem (bp : BackpressureController) (sig : SystemSignal) : BackpressureController :=
  { bp with systemSignal := some sig }

/-- The verdict on a partition alone. -/
def evaluatePartition (bp : BackpressureController) (partitionID : Nat) : BackpressureState :=
  match bp.predicted.bind fun loads => loads[partitionID]? with
  | none => .open
  | some load =>
      if bp.threshold < load then .closed
      else if bp.threshold * warnRatio < load then .warn
      else .open

theorem evaluatePartition_closed_iff (bp : BackpressureController) (partitionID : Nat) :
    bp.evaluatePartition partitionID = .closed ↔
      ∃ load, (bp.predicted.bind fun loads => loads[partitionID]?) = some load ∧
        bp.threshold < load := by
  unfold evaluatePartition
  cases bp.predicted.bind fun loads => loads[partitionID]? with
  | none => simp
  | some load =>
    simp only [Option.some.injEq, exists_eq_left']
    by_cases above : bp.threshold < load
    · simp [above]
    · rw [if_neg above]
      split <;> simp [above]

/-- `evaluate`: the system as a whole comes first. -/
def evaluate (bp : BackpressureController) (partitionID : Nat) : BackpressureState :=
  match bp.systemSignal with
  | none => bp.evaluatePartition partitionID
  | some sig =>
      if bp.threshold < sig.avgPredictedLoad then .closed
      else if flushLatencyWarnMs < sig.walFlushLatencyMs then .warn
      else bp.evaluatePartition partitionID

end BackpressureController

end NyaQueue
