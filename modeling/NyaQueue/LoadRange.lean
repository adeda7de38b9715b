import NyaQueue.MetricWindows
import NyaQueue.LoadPredictor
import Mathlib.Algebra.Order.Field.Basic
import Mathlib.Tactic.Linarith

/-!
# Loads and predictions are fractions

The load of a partition is the share of what it produced in a window that was not
consumed, and predictions are computed from loads.  Both stay between 0 and 1 in
every run, with any number of calls of `Collect` at the same time and with rings
that are filled, read and removed in between.
-/

set_option autoImplicit false

namespace NyaQueue

def InUnit (x : Rat) : Prop := 0 ≤ x ∧ x ≤ 1

theorem inUnit_zero : InUnit 0 := ⟨le_refl 0, by decide⟩

/-! ## Loads -/

namespace MetricsCollector

/-- A partition consumes no less than at the time of the values saved. -/
def Reading.Ordered (r : Reading) : Prop := r.previous.consumes ≤ r.current.consumes

theorem Reading.load_inUnit {r : Reading} (ordered : r.Ordered) : InUnit r.load := by
  unfold Ordered at ordered
  unfold load
  split
  · rename_i positive
    have bound : max 0 (r.delta.produces - r.delta.consumes) ≤ r.delta.produces := by
      simp only [delta, PartCounters.sub_produces, PartCounters.sub_consumes] at positive ⊢
      omega
    have lower : (0 : Rat) ≤ ((max 0 (r.delta.produces - r.delta.consumes) : Int) : Rat) := by
      exact_mod_cast le_max_left _ _
    have upper : ((max 0 (r.delta.produces - r.delta.consumes) : Int) : Rat) ≤ r.delta.produces := by
      exact_mod_cast bound
    have denominator : (0 : Rat) < r.delta.produces := by exact_mod_cast positive
    exact ⟨div_nonneg lower denominator.le, (div_le_one denominator).mpr upper⟩
  · exact inUnit_zero

end MetricsCollector

/-! ## Predictions -/

namespace Autoregression

theorem clamp_inUnit (x : Rat) : InUnit (clamp x) := by
  unfold clamp InUnit
  split
  · exact inUnit_zero
  · split
    · exact ⟨by decide, le_refl 1⟩
    · constructor <;> linarith

theorem sum_bounds (vals : List Rat) (inside : ∀ v ∈ vals, InUnit v) :
    0 ≤ vals.sum ∧ vals.sum ≤ vals.length := by
  induction vals with
  | nil => simp
  | cons v rest ih =>
    obtain ⟨first, later⟩ := List.forall_mem_cons.mp inside
    obtain ⟨lower, upper⟩ := ih later
    rw [List.sum_cons, List.length_cons]
    push_cast
    exact ⟨add_nonneg first.1 lower, by linarith [first.2]⟩

theorem mean_inUnit {vals : List Rat} (inside : ∀ v ∈ vals, InUnit v) (some : vals.length ≠ 0) :
    InUnit (mean vals) := by
  obtain ⟨lower, upper⟩ := sum_bounds vals inside
  have positive : (0 : Rat) < vals.length := by exact_mod_cast Nat.pos_of_ne_zero some
  exact ⟨div_nonneg lower positive.le, (div_le_one positive).mpr upper⟩

theorem extrapolate_inUnit (coeffs : List Rat) (mean : Rat) (horizon : Nat) (recent : List Rat) :
    ∀ v ∈ extrapolate coeffs mean horizon recent, InUnit v := by
  induction horizon generalizing recent with
  | zero => simp [extrapolate]
  | succ left ih =>
    simp only [extrapolate, List.forall_mem_cons]
    exact ⟨clamp_inUnit _, ih _⟩

theorem predict_inUnit (window : Nat) {vals : List Rat} (inside : ∀ v ∈ vals, InUnit v)
    (horizon : Nat) : ∀ v ∈ predict window vals horizon, InUnit v := by
  have constant : ∀ x, InUnit x → ∀ v ∈ List.replicate horizon x, InUnit v := by
    intro x fraction v member
    rw [(List.mem_replicate.mp member).2]
    exact fraction
  unfold predict
  dsimp only
  split
  · exact constant 0 inUnit_zero
  · rename_i some
    split
    · exact constant _ (mean_inUnit inside some)
    · split
      · exact constant _ (mean_inUnit inside some)
      · exact extrapolate_inUnit _ _ _ _

end Autoregression

namespace RingBuffer

theorem push_inUnit {rb : RingBuffer} (inside : ∀ v ∈ rb.data, InUnit v) {load : Rat}
    (fraction : InUnit load) : ∀ v ∈ (rb.push load).data, InUnit v := by
  intro v member
  rcases List.mem_or_eq_of_mem_set member with old | rfl
  · exact inside v old
  · exact fraction

theorem new_inUnit (size : Nat) (positive : 0 < size) :
    ∀ v ∈ (new size positive).data, InUnit v := by
  intro v member
  rw [(List.mem_replicate.mp member).2]
  exact inUnit_zero

theorem mem_data_of_valuesInto {rb : RingBuffer} {room : Nat} {v : Rat}
    (member : v ∈ rb.valuesInto room) : v ∈ rb.data := by
  unfold valuesInto copyInto at member
  split at member
  · exact List.mem_of_mem_take member
  · rcases List.mem_append.mp member with late | early
    · exact List.mem_of_mem_drop (List.mem_of_mem_take late)
    · exact List.mem_of_mem_take early

end RingBuffer

namespace PartitionPrediction

structure Fractions (p : PartitionPrediction) : Prop where
  current : InUnit p.current
  predicted : ∀ v ∈ p.predicted, InUnit v

theorem Fractions.next {p : PartitionPrediction} (fractions : p.Fractions) : InUnit p.next := by
  unfold PartitionPrediction.next
  cases steps : p.predicted with
  | nil => exact fractions.current
  | cons first rest => exact fractions.predicted first (by simp [steps])

end PartitionPrediction

namespace LoadPredictor

structure Fractions (lp : LoadPredictor) : Prop where
  rings : ∀ id rb, lp.history.lookup id = some rb → ∀ v ∈ rb.data, InUnit v
  predictions : ∀ p ∈ lp.predictions, p.Fractions

theorem fractions_new (window horizon : Nat) (positive : 0 < window) :
    (new window horizon positive).Fractions :=
  ⟨fun id rb found => by simp [new] at found, fun p member => by cases member⟩

variable {lp : LoadPredictor}

theorem Fractions.push (fractions : lp.Fractions) (id : Nat) {load : Rat} (fraction : InUnit load) :
    (lp.push id load).Fractions := by
  refine ⟨?_, fractions.predictions⟩
  intro id' rb found
  by_cases here : id' = id
  · subst here
    simp only [LoadPredictor.push, AList.lookup_insert, Option.some.injEq] at found
    subst found
    apply RingBuffer.push_inUnit _ fraction
    unfold ring
    cases before : lp.history.lookup id' with
    | none => exact RingBuffer.new_inUnit lp.window lp.positive
    | some rb => exact fractions.rings id' rb before
  · simp only [LoadPredictor.push, AList.lookup_insert_ne here] at found
    exact fractions.rings id' rb found

theorem predictionOf_fractions (window horizon id : Nat) {vals : List Rat}
    (inside : ∀ v ∈ vals, InUnit v) : (predictionOf window horizon id vals).Fractions := by
  refine ⟨?_, Autoregression.predict_inUnit window inside horizon⟩
  unfold predictionOf
  dsimp only
  cases last : vals.getLast? with
  | none => simpa [List.getLastD_eq_getLast?, last] using inUnit_zero
  | some v =>
    simpa [List.getLastD_eq_getLast?, last] using inside v (List.mem_of_getLast? last)

theorem Fractions.predict (fractions : lp.Fractions) (order : List Nat) :
    (lp.predict order).Fractions := by
  refine ⟨fractions.rings, ?_⟩
  intro p member
  obtain ⟨id, -, made⟩ := List.mem_filterMap.mp member
  obtain ⟨rb, found, rfl⟩ := Option.map_eq_some_iff.mp made
  exact predictionOf_fractions _ _ _ fun v inside =>
    fractions.rings id rb found v (RingBuffer.mem_data_of_valuesInto inside)

theorem Fractions.removePartition (fractions : lp.Fractions) (id : Nat) :
    (lp.removePartition id).Fractions := by
  refine ⟨?_, fractions.predictions⟩
  intro id' rb found
  by_cases here : id' = id
  · subst here
    simp [LoadPredictor.removePartition] at found
  · simp only [LoadPredictor.removePartition, AList.lookup_erase_ne here] at found
    exact fractions.rings id' rb found

end LoadPredictor

/-! ## The collector -/

namespace CollectRun

open MetricsCollector

/-- What a `Collect` has read, it has read in order. -/
def ReadsOrdered (c : Collecting) : Prop := ∀ entry ∈ c.readings, entry.2.Ordered

structure Ordered (s : CollectRun) : Prop where
  saved : ∀ p, (s.metrics.previousAt p).consumes ≤ (s.metrics.countersAt p).consumes
  running : ∀ c, some c ∈ s.running → ReadsOrdered c
  completed : ∀ c ∈ s.completed, ReadsOrdered c

theorem ordered_start (now : Int) : Ordered (start (.new now)) where
  saved _ := le_refl 0
  running _ member := by cases member
  completed _ member := by cases member

variable {s : CollectRun}

theorem ReadsOrdered.readNext {c : Collecting} (reads : ReadsOrdered c) {mc : MetricsCollector}
    (saved : ∀ p, (mc.previousAt p).consumes ≤ (mc.countersAt p).consumes) :
    ReadsOrdered (c.readNext mc) := by
  unfold Collecting.readNext
  split
  · exact reads
  · rename_i p rest left
    intro entry member
    rcases List.mem_append.mp member with before | here
    · exact reads entry before
    · rw [List.mem_singleton.mp here]
      exact saved p

theorem Ordered.read (ordered : Ordered s) (i : Nat) : Ordered (s.step (.read i)) := by
  simp only [step]
  split
  · exact ordered
  · rename_i c here
    refine ⟨ordered.saved, ?_, ordered.completed⟩
    intro c' member
    rcases List.mem_or_eq_of_mem_set member with before | same
    · exact ordered.running c' before
    · cases same
      exact (ordered.running c (List.mem_of_getElem? (collecting_eq_some.mp here))).readNext
        ordered.saved

theorem Ordered.save (ordered : Ordered s) (i : Nat) : Ordered (s.step (.save i)) := by
  simp only [step]
  split
  · exact ordered
  · rename_i c here
    split
    · refine ⟨fun p => by simp, ?_, ?_⟩
      · intro c' member
        rcases List.mem_or_eq_of_mem_set member with before | impossible
        · exact ordered.running c' before
        · cases impossible
      · rw [List.forall_mem_cons]
        exact ⟨ordered.running c (List.mem_of_getElem? (collecting_eq_some.mp here)),
          ordered.completed⟩
    · exact ordered

theorem Ordered.step (ordered : Ordered s) (e : CollectEvent) : Ordered (s.step e) := by
  cases e with
  | produce p n =>
    refine ⟨fun q => ?_, ordered.running, ordered.completed⟩
    have before := ordered.saved q
    simp only [CollectRun.step, record, countersAt_recordProduceBatch,
      previousAt_recordProduceBatch]
    split <;> simpa using before
  | consume p =>
    refine ⟨fun q => ?_, ordered.running, ordered.completed⟩
    have before := ordered.saved q
    simp only [CollectRun.step, record, countersAt_recordConsume, previousAt_recordConsume]
    split
    · simp
      omega
    · exact before
  | remove p =>
    refine ⟨fun q => ?_, ordered.running, ordered.completed⟩
    simp only [CollectRun.step, countersAt_removePartition, previousAt_removePartition]
    split
    · exact le_refl 0
    · exact ordered.saved q
  | begin partIDs now =>
    refine ⟨ordered.saved, ?_, ordered.completed⟩
    intro c member
    rcases List.mem_append.mp member with before | here
    · exact ordered.running c before
    · cases List.mem_singleton.mp here
      intro entry none
      cases none
  | read i => exact ordered.read i
  | save i => exact ordered.save i

theorem ReadsOrdered.loads {c : Collecting} (reads : ReadsOrdered c) :
    ∀ load ∈ c.metrics.partitionLoads, InUnit load := by
  intro load member
  obtain ⟨entry, inside, rfl⟩ := List.mem_map.mp member
  exact Reading.load_inUnit (reads entry inside)

end CollectRun

/-! ## Runs -/

/-- The collector and the predictor of a broker. -/
structure LoadRun where
  collector : CollectRun
  predictor : LoadPredictor

inductive LoadEvent where
  | collector (e : CollectEvent)
  /-- `Update` with the loads of a completed `Collect` pushes that of partition `i` -/
  | push (collect i : Nat)
  | predict (order : List Nat)
  /-- `RemovePartition` of the predictor -/
  | forget (id : Nat)

namespace LoadRun

def start (window horizon : Nat) (positive : 0 < window) (now : Int) : LoadRun where
  collector := .start (.new now)
  predictor := .new window horizon positive

/-- The loads that the completed call number `collect` has returned. -/
def loads (s : LoadRun) (collect : Nat) : List Rat :=
  ((s.collector.completed[collect]?).map fun c => c.metrics.partitionLoads).getD []

def step (s : LoadRun) : LoadEvent → LoadRun
  | .collector e => { s with collector := s.collector.step e }
  | .push collect i =>
      match (s.loads collect)[i]? with
      | none => s
      | some load => { s with predictor := s.predictor.push i load }
  | .predict order => { s with predictor := s.predictor.predict order }
  | .forget id => { s with predictor := s.predictor.removePartition id }

/-- The events of `Update` with the loads of a completed `Collect`. -/
def updateEvents (s : LoadRun) (collect : Nat) (order : List Nat) : List LoadEvent :=
  ((List.range (s.loads collect).length).map fun i => .push collect i) ++ [.predict order]

theorem push_all (s : LoadRun) (collect : Nat) (loads : List Rat) : ∀ (first : Nat)
    (lp : LoadPredictor), (∀ i, loads[i]? = (s.loads collect)[first + i]?) →
      Runs.final step { s with predictor := lp }
          ((List.range' first loads.length).map fun i => .push collect i) =
        { s with predictor := (loads.zipIdx first).foldl (fun lp entry =>
            lp.push entry.2 entry.1) lp } := by
  induction loads with
  | nil => intro first lp _; rfl
  | cons load rest ih =>
    intro first lp same
    have here := same 0
    have later : ∀ i, rest[i]? = (s.loads collect)[first + 1 + i]? := by
      intro i
      have next := same (i + 1)
      rw [List.getElem?_cons_succ] at next
      rw [next, Nat.add_assoc, Nat.add_comm 1 i]
    rw [List.length_cons, List.range'_succ, List.map_cons, Runs.final_cons]
    have pushed : step { s with predictor := lp } (.push collect first) =
        { s with predictor := lp.push first load } := by
      rw [Nat.add_zero] at here
      simp only [step, loads] at here ⊢
      rw [← here]
      rfl
    rw [pushed, ih (first + 1) _ later]
    rfl

theorem update_is_run (s : LoadRun) (collect : Nat) (order : List Nat) :
    Runs.final step s (s.updateEvents collect order) =
      { s with predictor := s.predictor.update (s.loads collect) order } := by
  have pushes := push_all s collect (s.loads collect) 0 s.predictor fun i => by rw [Nat.zero_add]
  rw [← List.range_eq_range'] at pushes
  rw [updateEvents, Runs.final_append, pushes]
  rfl

/-- All loads and predictions are between 0 and 1. -/
structure Bounded (s : LoadRun) : Prop where
  loads : ∀ c ∈ s.collector.completed, ∀ load ∈ c.metrics.partitionLoads, InUnit load
  predictions : ∀ p ∈ s.predictor.predictions, InUnit p.current ∧ ∀ v ∈ p.predicted, InUnit v
  predictAll : ∀ v ∈ s.predictor.predictAll, InUnit v

structure Inv (s : LoadRun) : Prop where
  ordered : s.collector.Ordered
  fractions : s.predictor.Fractions

theorem Inv.loads {s : LoadRun} (inv : Inv s) {collect i : Nat} {load : Rat}
    (found : (s.loads collect)[i]? = some load) : InUnit load := by
  unfold LoadRun.loads at found
  cases here : s.collector.completed[collect]? with
  | none => simp [here] at found
  | some c =>
    rw [here] at found
    exact (inv.ordered.completed c (List.mem_of_getElem? here)).loads load
      (List.mem_of_getElem? found)

theorem Inv.step {s : LoadRun} (inv : Inv s) (e : LoadEvent) : Inv (s.step e) := by
  cases e with
  | collector e => exact ⟨inv.ordered.step e, inv.fractions⟩
  | push collect i =>
    simp only [LoadRun.step]
    split
    · exact inv
    · rename_i load found
      exact ⟨inv.ordered, inv.fractions.push i (inv.loads found)⟩
  | predict order => exact ⟨inv.ordered, inv.fractions.predict order⟩
  | forget id => exact ⟨inv.ordered, inv.fractions.removePartition id⟩

theorem Inv.bounded {s : LoadRun} (inv : Inv s) : Bounded s where
  loads c member := (inv.ordered.completed c member).loads
  predictions p member :=
    ⟨(inv.fractions.predictions p member).current, (inv.fractions.predictions p member).predicted⟩
  predictAll v member := by
    obtain ⟨p, inside, rfl⟩ := List.mem_map.mp member
    exact (inv.fractions.predictions p inside).next

/-- In every run, loads and predictions stay between 0 and 1. -/
theorem loads_and_predictions_bounded (window horizon : Nat) (positive : 0 < window) (now : Int)
    (events : List LoadEvent) :
    ∀ s ∈ Runs.states step (start window horizon positive now) events, Bounded s := by
  intro s member
  have first : Inv (start window horizon positive now) :=
    ⟨CollectRun.ordered_start now, LoadPredictor.fractions_new window horizon positive⟩
  have keep : ∀ s e, Inv s → Inv (s.step e) := fun s e inv => inv.step e
  exact (Runs.invariant_of_step keep events _ first s member).bounded

/-- Partition 0 produces five messages and consumes one; its load is collected,
and forecast two steps ahead. -/
def oneForecast : List LoadEvent :=
  [.collector (.produce 0 5), .collector (.begin [0] 1), .collector (.consume 0),
    .collector (.read 0), .collector (.save 0), .push 0 0, .predict [0]]

theorem loads_and_predictions_bounded_one :
    (Runs.final step (start 4 2 (by decide) 0) oneForecast).predictor.predictions =
      [⟨0, 4 / 5, [4 / 5, 4 / 5]⟩] ∧
    Bounded (Runs.final step (start 4 2 (by decide) 0) oneForecast) :=
  ⟨by decide +kernel, loads_and_predictions_bounded 4 2 (by decide) 0 oneForecast _
    (Runs.final_mem_states step oneForecast _)⟩

end LoadRun

end NyaQueue
