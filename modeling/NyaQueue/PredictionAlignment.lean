import NyaQueue.LoadPredictor
import NyaQueue.Lib.Runs

/-!
# Which partition a prediction is for

`PredictAll` returns the predictions without their partitions, in the order in
which the map of rings was walked, and the backpressure controller takes entry `i`
for partition `i`.  Here the loads reported for each partition are kept beside the
predictor, and entry `i` is compared with the forecast made from those of `i`.
-/

set_option autoImplicit false

namespace NyaQueue

structure ForecastRun where
  predictor : LoadPredictor
  /-- the loads reported for a partition since its ring was last removed -/
  reported : Nat → List Rat
  /-- what had been reported when the predictions were made -/
  basis : Nat → List Rat

inductive ForecastEvent where
  /-- `Update`, where `order` has the partitions that `Range` visits -/
  | update (loads : List Rat) (order : List Nat)
  /-- a tick of the predictor's own loop -/
  | tick (order : List Nat)
  | remove (id : Nat)

namespace ForecastRun

def start (window horizon : Nat) (positive : 0 < window) : ForecastRun where
  predictor := .new window horizon positive
  reported _ := []
  basis _ := []

def push (s : ForecastRun) (entry : Rat × Nat) : ForecastRun :=
  { s with
    predictor := s.predictor.push entry.2 entry.1
    reported := Function.update s.reported entry.2 (s.reported entry.2 ++ [entry.1]) }

def pushAll (s : ForecastRun) (loads : List Rat) : ForecastRun := Runs.final push s loads.zipIdx

def predict (s : ForecastRun) (order : List Nat) : ForecastRun :=
  { s with predictor := s.predictor.predict order, basis := s.reported }

def step (s : ForecastRun) : ForecastEvent → ForecastRun
  | .update loads order => (s.pushAll loads).predict order
  | .tick order => s.predict order
  | .remove id =>
      { s with
        predictor := s.predictor.removePartition id
        reported := Function.update s.reported id [] }

theorem predictor_pushAll (entries : List (Rat × Nat)) : ∀ s : ForecastRun,
    (Runs.final push s entries).predictor =
      entries.foldl (fun lp entry => lp.push entry.2 entry.1) s.predictor := by
  induction entries with
  | nil => intro s; rfl
  | cons entry rest ih => intro s; exact ih (s.push entry)

theorem predictor_update (s : ForecastRun) (loads : List Rat) (order : List Nat) :
    (s.step (.update loads order)).predictor = s.predictor.update loads order := by
  simp only [step, predict, pushAll, predictor_pushAll]
  rfl

/-- The forecast for a partition from the last loads reported for it. -/
def forecast (lp : LoadPredictor) (loads : List Rat) : Option Rat :=
  if loads = [] then none
  else some (LoadPredictor.predictionOf lp.window lp.horizon 0
    (loads.drop (loads.length - lp.window))).next

/-- Entry `i` of the predictions is the forecast for partition `i`. -/
def Aligned (s : ForecastRun) : Prop :=
  ∀ i, s.predictor.predictAll[i]? = forecast s.predictor (s.basis i)

end ForecastRun

/-- Neither the average load nor the disk keeps all partitions back. -/
def BackpressureController.Calm (bp : BackpressureController) : Prop :=
  ∀ sig ∈ bp.systemSignal, sig.avgPredictedLoad ≤ bp.threshold ∧
    sig.walFlushLatencyMs ≤ flushLatencyWarnMs

theorem BackpressureController.evaluate_calm {bp : BackpressureController} (calm : bp.Calm)
    (partitionID : Nat) : bp.evaluate partitionID = bp.evaluatePartition partitionID := by
  unfold evaluate
  cases signal : bp.systemSignal with
  | none => rfl
  | some sig =>
    obtain ⟨load, latency⟩ := calm sig signal
    simp [not_lt.mpr load, not_lt.mpr latency]

namespace ForecastRun

/-- A controller that is given the predictions closes exactly the partitions whose
own forecast is above the threshold. -/
def Throttles (s : ForecastRun) : Prop :=
  ∀ bp : BackpressureController, bp.Calm → ∀ i,
    (bp.updatePredictions s.predictor.predictAll).evaluate i = .closed ↔
      ∃ f, forecast s.predictor (s.basis i) = some f ∧ bp.threshold < f

theorem Aligned.throttles {s : ForecastRun} (aligned : Aligned s) : Throttles s := by
  intro bp calm i
  have calm' : (bp.updatePredictions s.predictor.predictAll).Calm := calm
  rw [BackpressureController.evaluate_calm calm',
    BackpressureController.evaluatePartition_closed_iff, ← aligned i]
  rfl

/-- `Range` visits every partition that has a ring, once. -/
def Visits (s : ForecastRun) : ForecastEvent → Prop
  | .update loads order => order.Perm (s.pushAll loads).predictor.history.keys
  | .tick order => order.Perm s.predictor.history.keys
  | .remove _ => True

/-- The partitions visited are 0, 1, and so on without a gap, in this order. -/
def InOrder : ForecastEvent → Prop
  | .update _ order => order = List.range order.length
  | .tick order => order = List.range order.length
  | .remove _ => True

structure Inv (s : ForecastRun) : Prop where
  rings : ∀ id, (s.predictor.ring id).Holds (s.reported id) ∧
    (s.predictor.ring id).data.length = s.predictor.window
  known : ∀ id, id ∈ s.predictor.history ↔ s.reported id ≠ []
  aligned : Aligned s

section Step

variable {s : ForecastRun}

theorem inv_start (window horizon : Nat) (positive : 0 < window) :
    Inv (start window horizon positive) where
  rings id := ⟨RingBuffer.holds_new window positive, List.length_replicate⟩
  known id := by simp [start, LoadPredictor.new]
  aligned i := rfl

theorem Inv.push (inv : Inv s) (entry : Rat × Nat) : Inv (s.push entry) := by
  obtain ⟨load, id⟩ := entry
  refine ⟨fun id' => ?_, fun id' => ?_, inv.aligned⟩
  · have before := inv.rings id'
    by_cases here : id' = id
    · subst here
      simp only [ForecastRun.push, LoadPredictor.push, LoadPredictor.ring, AList.lookup_insert,
        Option.getD_some, Function.update_self]
      exact ⟨before.1.push load, (RingBuffer.length_push ..).trans before.2⟩
    · simpa only [ForecastRun.push, LoadPredictor.push, LoadPredictor.ring,
        AList.lookup_insert_ne here, Function.update_of_ne here] using before
  · have before := inv.known id'
    by_cases here : id' = id
    · subst here
      simp [ForecastRun.push, LoadPredictor.push]
    · simpa [ForecastRun.push, LoadPredictor.push, here] using before

theorem Inv.pushAll (inv : Inv s) (loads : List Rat) : Inv (s.pushAll loads) := by
  have keep : ∀ s entry, Inv s → Inv (s.push entry) := fun _ entry inv => inv.push entry
  exact Runs.invariant_final keep loads.zipIdx s inv

theorem Inv.forecast_ring (inv : Inv s) {id : Nat} {rb : RingBuffer}
    (found : s.predictor.history.lookup id = some rb) :
    forecast s.predictor (s.reported id) = some (LoadPredictor.predictionOf s.predictor.window
      s.predictor.horizon id (rb.valuesInto s.predictor.window)).next := by
  have some : s.reported id ≠ [] := (inv.known id).mp (AList.lookup_isSome.mp (by simp [found]))
  obtain ⟨holds, size⟩ := inv.rings id
  rw [LoadPredictor.ring, found, Option.getD_some] at holds size
  rw [forecast, if_neg some, ← size, holds.valuesInto, size]
  rfl

theorem Inv.predictAll_visited (inv : Inv s) (order : List Nat)
    (found : ∀ id ∈ order, id ∈ s.predictor.history) :
    (s.predict order).predictor.predictAll.map some =
      order.map fun id => forecast s.predictor (s.reported id) := by
  simp only [ForecastRun.predict, LoadPredictor.predict, LoadPredictor.predictAll]
  induction order with
  | nil => rfl
  | cons id rest ih =>
    obtain ⟨here, later⟩ := List.forall_mem_cons.mp found
    obtain ⟨rb, ring⟩ := Option.isSome_iff_exists.mp (AList.lookup_isSome.mpr here)
    rw [List.filterMap_cons_some (b := LoadPredictor.predictionOf s.predictor.window
        s.predictor.horizon id (rb.valuesInto s.predictor.window)) (by rw [ring]; rfl),
      List.map_cons, List.map_cons, List.map_cons, ih later, inv.forecast_ring ring]

theorem Inv.predict (inv : Inv s) {order : List Nat}
    (visits : order.Perm s.predictor.history.keys) (inOrder : order = List.range order.length) :
    Inv (s.predict order) := by
  obtain ⟨k, rfl⟩ : ∃ k, order = List.range k := ⟨order.length, inOrder⟩
  refine ⟨inv.rings, inv.known, fun i => ?_⟩
  have visited : ∀ id, id ∈ s.predictor.history ↔ id < k := by
    intro id
    rw [AList.mem_keys, ← visits.mem_iff, List.mem_range]
  have entries := inv.predictAll_visited (List.range k) fun id member =>
    (visited id).mpr (List.mem_range.mp member)
  have entry : ((s.predict (List.range k)).predictor.predictAll.map some)[i]? =
      ((List.range k).map fun id => forecast s.predictor (s.reported id))[i]? := by rw [entries]
  rw [List.getElem?_map, List.getElem?_map] at entry
  by_cases small : i < k
  · have known : i ∈ s.predictor.history := (visited i).mpr small
    obtain ⟨rb, ring⟩ := Option.isSome_iff_exists.mp (AList.lookup_isSome.mpr known)
    rw [List.getElem?_range small, Option.map_some, inv.forecast_ring ring] at entry
    obtain ⟨v, here, same⟩ := Option.map_eq_some_iff.mp entry
    rw [here, same]
    exact (inv.forecast_ring ring).symm
  · have unknown : s.reported i = [] := by
      by_contra reported
      exact small ((visited i).mp ((inv.known i).mpr reported))
    have outside : (List.range k)[i]? = none := List.getElem?_eq_none (by simpa using small)
    rw [outside, Option.map_none, Option.map_eq_none_iff] at entry
    have basis : (s.predict (List.range k)).basis i = [] := unknown
    rw [entry, basis]
    rfl

theorem Inv.remove (inv : Inv s) (id : Nat) : Inv (s.step (.remove id)) := by
  refine ⟨fun id' => ?_, fun id' => ?_, inv.aligned⟩
  · have before := inv.rings id'
    by_cases here : id' = id
    · subst here
      simp only [step, LoadPredictor.removePartition, LoadPredictor.ring, AList.lookup_erase,
        Option.getD_none, Function.update_self]
      exact ⟨RingBuffer.holds_new _ _, List.length_replicate⟩
    · simpa only [step, LoadPredictor.removePartition, LoadPredictor.ring,
        AList.lookup_erase_ne here, Function.update_of_ne here] using before
  · have before := inv.known id'
    by_cases here : id' = id
    · subst here
      simp [step, LoadPredictor.removePartition]
    · simpa [step, LoadPredictor.removePartition, here] using before

theorem Inv.step (inv : Inv s) {e : ForecastEvent} (visits : s.Visits e) (inOrder : InOrder e) :
    Inv (s.step e) := by
  cases e with
  | update loads order => exact (inv.pushAll loads).predict visits inOrder
  | tick order => exact inv.predict visits inOrder
  | remove id => exact inv.remove id

end Step

/-- In a run in which the partitions with a ring are always 0, 1 and so on, and are
visited in this order, every prediction is for the partition it is taken for. -/
theorem predictions_aligned_of_in_order (window horizon : Nat) (positive : 0 < window)
    (events : List ForecastEvent)
    (guarded : Runs.Guarded step (fun s e => s.Visits e ∧ InOrder e)
      (start window horizon positive) events) :
    ∀ s ∈ Runs.states step (start window horizon positive) events, Aligned s ∧ Throttles s := by
  intro s member
  have keep : ∀ s e, Inv s → s.Visits e ∧ InOrder e → Inv (s.step e) :=
    fun s e inv both => inv.step both.1 both.2
  have aligned := (Runs.invariant_states keep events _ (inv_start window horizon positive) guarded s
    member).aligned
  exact ⟨aligned, aligned.throttles⟩

instance visitsDecidable (s : ForecastRun) : ∀ e, Decidable (s.Visits e)
  | .update loads order => inferInstanceAs (Decidable
      (order.Perm (s.pushAll loads).predictor.history.keys))
  | .tick order => inferInstanceAs (Decidable (order.Perm s.predictor.history.keys))
  | .remove _ => isTrue trivial

instance inOrderDecidable : ∀ e, Decidable (InOrder e)
  | .update _ order => inferInstanceAs (Decidable (order = List.range order.length))
  | .tick order => inferInstanceAs (Decidable (order = List.range order.length))
  | .remove _ => isTrue trivial

/-- Two partitions, and later only the first. -/
def visitedInOrder : List ForecastEvent :=
  [.update [1 / 10, 9 / 10] [0, 1], .remove 1, .update [3 / 10] [0]]

theorem predictions_aligned_two :
    Runs.Guarded step (fun s e => s.Visits e ∧ InOrder e) (start 4 2 (by decide)) visitedInOrder ∧
    ∀ s ∈ Runs.states step (start 4 2 (by decide)) visitedInOrder, Aligned s ∧ Throttles s := by
  have guarded : Runs.Guarded step (fun s e => s.Visits e ∧ InOrder e) (start 4 2 (by decide))
    visitedInOrder := by decide +kernel
  exact ⟨guarded, predictions_aligned_of_in_order 4 2 (by decide) visitedInOrder guarded⟩

/-- The map is walked from partition 1 to partition 0. -/
def visitedBackwards : List ForecastEvent := [.update [1 / 10, 9 / 10] [1, 0]]

/-- Partition 1 is the loaded one, and partition 0 is closed for it. -/
theorem backwards_throttles_other :
    let s := Runs.final step (start 4 2 (by decide)) visitedBackwards
    let bp := (BackpressureController.new 0).updatePredictions s.predictor.predictAll
    Runs.Guarded step Visits (start 4 2 (by decide)) visitedBackwards ∧
    s.predictor.predictAll = [9 / 10, 1 / 10] ∧
    forecast s.predictor (s.basis 0) = some (1 / 10) ∧
    forecast s.predictor (s.basis 1) = some (9 / 10) ∧
    bp.evaluate 0 = .closed ∧ bp.evaluate 1 = .open ∧ ¬Aligned s := by
  have outcome :
      let s := Runs.final step (start 4 2 (by decide)) visitedBackwards
      let bp := (BackpressureController.new 0).updatePredictions s.predictor.predictAll
      Runs.Guarded step Visits (start 4 2 (by decide)) visitedBackwards ∧
      s.predictor.predictAll = [9 / 10, 1 / 10] ∧
      forecast s.predictor (s.basis 0) = some (1 / 10) ∧
      forecast s.predictor (s.basis 1) = some (9 / 10) ∧
      bp.evaluate 0 = .closed ∧ bp.evaluate 1 = .open := by decide +kernel
  obtain ⟨visits, all, first, second, closed, opened⟩ := outcome
  refine ⟨visits, all, first, second, closed, opened, fun aligned => ?_⟩
  have same := aligned 0
  rw [all, first] at same
  revert same
  decide +kernel

end ForecastRun

end NyaQueue
