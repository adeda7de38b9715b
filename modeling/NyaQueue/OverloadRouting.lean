import NyaQueue.PriorityIndex
import NyaQueue.RunningNormalizer
import NyaQueue.Lib.Runs
import Mathlib.Algebra.BigOperators.Fin
import Mathlib.Tactic.Linarith
import Mathlib.Tactic.NormNum

/-!
# Which transitions of the DQN scheduler go to the crisis buffer

Model of the policy loop of the DQN scheduler, of the state it builds, of the
transitions recorded from it and of `isOverloadTransition`
(`pkg/scheduler/dqn.go`), in exact arithmetic.  The loop suppresses exploration when
the queue is deep and grows; `isOverloadTransition` asks the same of the recorded
state, which has been normalised: it compares the distance from the mean depth, in
sample deviations, with the bound for the depth itself.
-/

set_option autoImplicit false

namespace NyaQueue

namespace DqnSched

def stateSize : Nat := maxPriority * 2 + 3

def depthIdx : Fin stateSize := ⟨maxPriority * 2, by decide⟩

def velocityIdx : Fin stateSize := ⟨maxPriority * 2 + 1, by decide⟩

/-- What a tick of the policy loop meets: the entries and the waiting times of each
level, the rates last reported, the threshold that the network prefers for the state
it is shown, and the length of the index when the tick looks once more. -/
structure PolicyView (F : Type) where
  dist : Level → Int
  latencySums : Level → Nat
  latencyCounts : Level → Nat
  produceRate : F
  consumeRate : F
  threshold : Nat
  len : Int

/-- `totalDepth` -/
def PolicyView.depth {F : Type} (v : PolicyView F) : Int := ∑ p, v.dist p

structure SchedPolicySnap (F : Type) where
  state : Fin stateSize → F
  threshold : Nat

/-- The part of a transition that decides where it goes. -/
structure Transition (F : Type) where
  state : Fin stateSize → F
  action : Nat
  nextState : Fin stateSize → F

structure Scheduler (F : Type) where
  normalizer : RunningNormalizer F stateSize
  prevTotalDepth : Int
  lastPolicyDepth : Int
  epsilon : F
  prevSnap : Option (SchedPolicySnap F)
  currSnap : Option (SchedPolicySnap F)

section Model

variable {F : Type} [Field F] [LinearOrder F]

/-- `NewDQNScheduler` -/
def new : Scheduler F where
  normalizer := .new
  prevTotalDepth := 0
  lastPolicyDepth := 0
  epsilon := 1 / 20
  prevSnap := none
  currSnap := none

/-- The mean waiting time of a level, in seconds. -/
def wait (v : PolicyView F) (p : Level) : F :=
  if 0 < v.latencyCounts p then (v.latencySums p : F) / v.latencyCounts p / 1000000000 else 0

/-- The state before it is normalised. -/
def rawState (prevTotalDepth : Int) (v : PolicyView F) : Fin stateSize → F := fun i =>
  if level : i.val < maxPriority then v.dist ⟨i.val, level⟩
  else if waits : i.val - maxPriority < maxPriority then wait v ⟨i.val - maxPriority, waits⟩
  else if i = depthIdx then v.depth
  else if i = velocityIdx then ((v.depth - prevTotalDepth : Int) : F) / 10000
  else if 0 < v.consumeRate then v.produceRate / v.consumeRate else 0

/-- A tick of `policyLoop`. -/
def policyTick [SquareRoot F] (d : Scheduler F) (v : PolicyView F) : Scheduler F :=
  let raw := rawState d.prevTotalDepth v
  let normalizer := d.normalizer.observe raw
  { normalizer := normalizer
    prevTotalDepth := v.depth
    lastPolicyDepth := v.len
    epsilon := if 1000 < v.len ∧ 0 < v.len - d.lastPolicyDepth then 0 else 1 / 20
    prevSnap := d.currSnap
    currSnap := some ⟨normalizer.normalizeInPlace raw, v.threshold⟩ }

/-- The transition that `OnMetrics` records, once there have been two ticks. -/
def onMetrics (d : Scheduler F) : Option (Transition F) :=
  match d.prevSnap, d.currSnap with
  | some prev, some curr => some ⟨prev.state, prev.threshold, curr.state⟩
  | _, _ => none

def isOverloadTransition (t : Transition F) : Bool :=
  decide (1000 < t.state depthIdx) && decide (0 < t.state velocityIdx)

end Model

/-! ## Histories -/

section History

variable {F : Type}

/-- The depth that the last tick of the history has seen, zero before the first. -/
def depthAfter (history : List (PolicyView F)) : Int := history.foldl (fun _ v => v.depth) 0

/-- A deep queue that has grown since the last tick. -/
def Overloaded (history : List (PolicyView F)) (v : PolicyView F) : Prop :=
  1000 < v.depth ∧ 0 < v.depth - depthAfter history

variable [Field F] [LinearOrder F]

def depths (history : List (PolicyView F)) : List F := history.map fun v => (v.depth : F)

/-- The depth is more than a thousand sample deviations above the mean of all depths
seen, and the queue has grown by more than its mean growth. -/
def StandsOut [SquareRoot F] (history : List (PolicyView F)) (v : PolicyView F) : Prop :=
  1 ≤ history.length ∧
  1000 * (Moments.stdDev (depths (history ++ [v])) + RunningNormalizer.minStd) <
    v.depth - Moments.mean (depths (history ++ [v])) ∧
  v.depth < (history.length + 1) * (v.depth - depthAfter history)

/-- The transition recorded for a tick goes to the crisis buffer exactly if the tick
has seen an overload. -/
def RoutedByOverload [SquareRoot F] (history : List (PolicyView F)) (v next : PolicyView F) :
    Prop :=
  ∃ t, onMetrics (Runs.final policyTick new (history ++ [v, next])) = some t ∧
    (isOverloadTransition t = true ↔ Overloaded history v)

/-- The states that the ticks of a history build, with the depth before the first. -/
def rawStates : Int → List (PolicyView F) → List (Fin stateSize → F)
  | _, [] => []
  | prevTotalDepth, v :: rest => rawState prevTotalDepth v :: rawStates v.depth rest

variable (history : List (PolicyView F))

omit [Field F] [LinearOrder F] in
theorem depthAfter_concat (v : PolicyView F) :
    depthAfter (history ++ [v]) = v.depth := by
  rw [depthAfter, List.foldl_concat]

theorem rawStates_concat (v : PolicyView F) : ∀ start : Int,
    rawStates start (history ++ [v]) = rawStates start history ++
      [rawState (history.foldl (fun _ v => v.depth) start) v] := by
  induction history with
  | nil => intro start; rfl
  | cons first rest ih => intro start; exact congrArg (_ :: ·) (ih first.depth)

theorem rawState_depth (prevTotalDepth : Int) (v : PolicyView F) :
    rawState prevTotalDepth v depthIdx = v.depth := by
  rfl

theorem rawState_velocity (prevTotalDepth : Int) (v : PolicyView F) :
    rawState prevTotalDepth v velocityIdx = ((v.depth - prevTotalDepth : Int) : F) / 10000 := by
  rfl

theorem length_rawStates : ∀ start : Int,
    (rawStates start history).length = history.length := by
  induction history with
  | nil => intro start; rfl
  | cons v rest ih => intro start; exact congrArg (· + 1) (ih v.depth)

theorem rawStates_depths : ∀ start : Int,
    (rawStates start history).map (fun x => x depthIdx) = depths history := by
  induction history with
  | nil => intro start; rfl
  | cons v rest ih => intro start; exact congrArg (_ :: ·) (ih v.depth)

theorem rawStates_velocities : ∀ start : Int,
    ((rawStates start history).map (fun x => x velocityIdx)).sum =
      ((history.foldl (fun _ v => v.depth) start - start : Int) : F) / 10000 := by
  induction history with
  | nil => intro start; simp [rawStates]
  | cons v rest ih =>
    intro start
    rw [rawStates, List.map_cons, List.sum_cons, ih, rawState_velocity, List.foldl_cons]
    push_cast
    ring

end History

/-! ## Routing -/

section Routing

variable {F : Type} [Field F] [LinearOrder F] [IsStrictOrderedRing F] [SquareRoot F]

variable (history : List (PolicyView F)) (v : PolicyView F)

theorem normalizer_after :
    (Runs.final policyTick new history).normalizer = .knowing (rawStates 0 history) ∧
      (Runs.final policyTick new history).prevTotalDepth = depthAfter history := by
  induction history using List.reverseRecOn with
  | nil => exact ⟨(RunningNormalizer.observe_all []), rfl⟩
  | append_singleton history v ih =>
    obtain ⟨known, last⟩ := ih
    have step : Runs.final policyTick new (history ++ [v]) =
        policyTick (Runs.final policyTick new history) v := Runs.final_append ..
    rw [step, depthAfter_concat, rawStates_concat]
    refine ⟨?_, rfl⟩
    rw [policyTick, known, last]
    exact RunningNormalizer.knowing_concat _ _

theorem currSnap_after :
    (Runs.final policyTick new (history ++ [v])).currSnap =
      some ⟨(RunningNormalizer.knowing (rawStates 0 (history ++ [v]))).normalizeInPlace
        (rawState (depthAfter history) v), v.threshold⟩ := by
  obtain ⟨known, last⟩ := normalizer_after history
  have step : Runs.final policyTick new (history ++ [v]) =
      policyTick (Runs.final policyTick new history) v := Runs.final_append ..
  rw [step, policyTick, known, last, RunningNormalizer.knowing_concat, rawStates_concat]
  rfl

theorem onMetrics_after (next : PolicyView F) :
    ∃ t, onMetrics (Runs.final policyTick new (history ++ [v, next])) = some t ∧
      t.state = (RunningNormalizer.knowing (rawStates 0 (history ++ [v]))).normalizeInPlace
        (rawState (depthAfter history) v) := by
  have steps : history ++ [v, next] = history ++ [v] ++ [next] := by simp
  have before := currSnap_after history v
  have after := currSnap_after (history ++ [v]) next
  have kept : (Runs.final policyTick new (history ++ [v] ++ [next])).prevSnap =
      (Runs.final policyTick new (history ++ [v])).currSnap := by
    rw [Runs.final_append]
    rfl
  rw [steps, onMetrics, kept, before, after]
  exact ⟨_, rfl, rfl⟩

theorem isOverloadTransition_iff {history : List (PolicyView F)} {v : PolicyView F}
    {t : Transition F}
    (recorded : t.state = (RunningNormalizer.knowing
      (rawStates 0 (history ++ [v]))).normalizeInPlace (rawState (depthAfter history) v)) :
    isOverloadTransition t = true ↔ StandsOut history v := by
  have size : (rawStates (F := F) 0 (history ++ [v])).length = history.length + 1 := by
    rw [length_rawStates, List.length_append]
    rfl
  have positive : (0 : F) < history.length + 1 := by
    exact_mod_cast Nat.succ_pos history.length
  have growth : Moments.mean ((rawStates (F := F) 0 (history ++ [v])).map fun x => x velocityIdx) =
      (v.depth : F) / 10000 / (history.length + 1) := by
    rw [Moments.mean, rawStates_velocities, List.foldl_concat, List.length_map, size]
    push_cast
    rw [sub_zero]
  have grows : (0 : F) * (Moments.stdDev ((rawStates 0 (history ++ [v])).map
        fun x => x velocityIdx) + RunningNormalizer.minStd) <
      ((v.depth - depthAfter history : Int) : F) / 10000 -
        (v.depth : F) / 10000 / (history.length + 1) ↔
      v.depth < (history.length + 1) * (v.depth - depthAfter history) := by
    have shared : ((v.depth - depthAfter history : Int) : F) / 10000 -
        (v.depth : F) / 10000 / (history.length + 1) =
        ((history.length + 1) * (v.depth - depthAfter history) - v.depth) /
          (10000 * (history.length + 1)) := by
      push_cast
      field_simp
    rw [zero_mul, shared, div_pos_iff_of_pos_right (by positivity), sub_pos]
    exact_mod_cast Iff.rfl
  rw [isOverloadTransition, Bool.and_eq_true, decide_eq_true_iff, decide_eq_true_iff, recorded,
    RunningNormalizer.lt_normalizeInPlace_iff _ _ _ (by norm_num),
    RunningNormalizer.lt_normalizeInPlace_iff _ _ _ le_rfl, rawStates_depths, rawState_depth,
    rawState_velocity, growth, grows, size]
  unfold StandsOut
  constructor
  · rintro ⟨⟨enough, deep⟩, -, growing⟩
    exact ⟨by omega, deep, growing⟩
  · rintro ⟨enough, deep, growing⟩
    exact ⟨⟨by omega, deep⟩, by omega, growing⟩

theorem not_standsOut {history : List (PolicyView F)} (short : history.length ≤ 1000000)
    (v : PolicyView F) : ¬ StandsOut history v := by
  rintro ⟨enough, deep, -⟩
  have split : depths (history ++ [v]) = depths history ++ [(v.depth : F)] := by
    simp [depths]
  have size : (depths (F := F) history).length = history.length := by
    simp [depths]
  have room : (1 : F) ≤ history.length := by exact_mod_cast enough
  have few : (history.length : F) ≤ 1000000 := by exact_mod_cast short
  have last := Moments.last_deviation (depths history) (v.depth : F)
  have variance : history.length * (Moments.stdDev (depths (F := F) (history ++ [v])) *
      Moments.stdDev (depths (history ++ [v]))) = Moments.squares (depths (history ++ [v])) := by
    rw [Moments.stdDev_mul_self (by simp [split]), split, List.length_append, size,
      List.length_singleton]
    push_cast
    rw [add_sub_cancel_right, mul_div_cancel₀ _ (by linarith)]
  have nonneg := Moments.stdDev_nonneg (depths (F := F) (history ++ [v]))
  rw [size, ← split, ← variance] at last
  generalize Moments.stdDev (depths (F := F) (history ++ [v])) = sd at *
  generalize (v.depth : F) - Moments.mean (depths (history ++ [v])) = off at *
  have positive : (0 : F) < RunningNormalizer.minStd := RunningNormalizer.minStd_pos
  have far : 1000 * sd < off := by linarith
  have square : 1000000 * (sd * sd) < off * off := by nlinarith
  -- the last value takes part in the deviation, which bounds how far it is off
  have product : (history.length : F) * history.length ≤ 1000000 * (history.length + 1) := by
    nlinarith
  have bound : (history.length + 1) * (off * off) ≤ (history.length + 1) * (1000000 * (sd * sd)) :=
    calc (history.length + 1) * (off * off) ≤ history.length * (history.length * (sd * sd)) := last
      _ = history.length * history.length * (sd * sd) := by ring
      _ ≤ 1000000 * (history.length + 1) * (sd * sd) :=
        mul_le_mul_of_nonneg_right product (mul_self_nonneg sd)
      _ = (history.length + 1) * (1000000 * (sd * sd)) := by ring
  exact absurd square (not_lt.mpr (le_of_mul_le_mul_left bound (by linarith)))

/-- Exploration is suppressed on an overload, as long as the index does not change
while the tick looks at it. -/
theorem epsilon_eq_zero_iff (still : ∀ u ∈ history ++ [v], u.len = u.depth) :
    (Runs.final policyTick new (history ++ [v])).epsilon = 0 ↔ Overloaded history v := by
  have before : (Runs.final policyTick new history).lastPolicyDepth = depthAfter history := by
    rcases List.eq_nil_or_concat history with rfl | ⟨early, last, rfl⟩
    · rfl
    · rw [List.concat_eq_append, Runs.final_append, depthAfter_concat]
      exact still last (by simp)
  have step : Runs.final policyTick new (history ++ [v]) =
      policyTick (Runs.final policyTick new history) v := Runs.final_append ..
  rw [step, policyTick, before, still v (by simp)]
  dsimp only
  unfold Overloaded
  split
  · rename_i overloaded
    exact ⟨fun _ => overloaded, fun _ => rfl⟩
  · rename_i calm
    exact ⟨fun zero => by norm_num at zero, fun overloaded => absurd overloaded calm⟩

/-- A tick of a history, with what has come before and the tick after it. -/
def HasTick (ticks history : List (PolicyView F)) (v next : PolicyView F) : Prop :=
  ∃ rest, ticks = history ++ v :: next :: rest

theorem routedByOverload_iff (next : PolicyView F) :
    RoutedByOverload history v next ↔ (Overloaded history v ↔ StandsOut history v) := by
  obtain ⟨t, recorded, state⟩ := onMetrics_after history v next
  constructor
  · rintro ⟨t', recorded', routed⟩
    rw [recorded] at recorded'
    cases recorded'
    exact routed.symm.trans (isOverloadTransition_iff state)
  · intro same
    exact ⟨t, recorded, (isOverloadTransition_iff state).trans same.symm⟩

/-- The transitions of a history are routed by overload exactly when the ticks that saw
an overload are those whose depth stands out among all depths seen.  As long as there
have been at most a million and two ticks that means that no tick saw an overload.
The policy loop itself suppresses exploration on an overload. -/
theorem routed_by_overload_iff (ticks : List (PolicyView F)) :
    ((∀ history v next, HasTick ticks history v next → RoutedByOverload history v next) ↔
      ∀ history v next, HasTick ticks history v next →
        (Overloaded history v ↔ StandsOut history v)) ∧
    (ticks.length ≤ 1000002 →
      ((∀ history v next, HasTick ticks history v next → RoutedByOverload history v next) ↔
        ∀ history v next, HasTick ticks history v next → ¬ Overloaded history v)) ∧
    ∀ history v, (∃ rest, ticks = history ++ v :: rest) → (∀ u ∈ ticks, u.len = u.depth) →
      ((Runs.final policyTick new (history ++ [v])).epsilon = 0 ↔ Overloaded history v) := by
  refine ⟨?_, fun short => ?_, ?_⟩
  · simp only [routedByOverload_iff]
  · have early : ∀ history v next, HasTick ticks history v next → ¬ StandsOut history v := by
      rintro history v next ⟨rest, rfl⟩
      apply not_standsOut
      simp only [List.length_append, List.length_cons] at short
      omega
    simp only [routedByOverload_iff]
    constructor
    · intro same history v next tick overloaded
      exact early history v next tick ((same history v next tick).mp overloaded)
    · intro calm history v next tick
      exact ⟨fun overloaded => absurd overloaded (calm history v next tick),
        fun out => absurd out (early history v next tick)⟩
  · rintro history v ⟨rest, rfl⟩ still
    apply epsilon_eq_zero_iff
    intro u member
    apply still
    rw [List.append_cons]
    exact List.mem_append_left rest member

end Routing

/-! ## An overload that is not recognised -/

/-- A tick that sees so many entries at one level. -/
def seeing (entries : Nat) : PolicyView ℝ where
  dist p := if p.val = 5 then entries else 0
  latencySums _ := 0
  latencyCounts _ := 0
  produceRate := 0
  consumeRate := 0
  threshold := 5
  len := entries

theorem depth_seeing (entries : Nat) : (seeing entries).depth = entries := by
  have only : ∀ p : Level, (if p.val = 5 then (entries : Int) else 0) =
      if p = ⟨5, by decide⟩ then (entries : Int) else 0 := fun p =>
    if_congr (Fin.ext_iff (b := ⟨5, by decide⟩)).symm rfl rfl
  unfold PolicyView.depth seeing
  dsimp only
  rw [Finset.sum_congr rfl fun p _ => only p, Finset.sum_ite_eq', if_pos (Finset.mem_univ _)]

/-- Two thousand entries after an empty queue are an overload, which suppresses
exploration, and the transition does not go to the crisis buffer. -/
theorem overload_not_routed :
    Overloaded [seeing 0] (seeing 2000) ∧
      (Runs.final policyTick new [seeing 0, seeing 2000]).epsilon = 0 ∧
      ∃ t, onMetrics (Runs.final policyTick new [seeing 0, seeing 2000, seeing 2000]) = some t ∧
        isOverloadTransition t = false := by
  have overloaded : Overloaded [seeing 0] (seeing 2000) := by
    simp [Overloaded, depthAfter, depth_seeing]
  obtain ⟨t, recorded, state⟩ := onMetrics_after [seeing 0] (seeing 2000) (seeing 2000)
  refine ⟨overloaded, ?_, t, recorded, ?_⟩
  · refine (epsilon_eq_zero_iff [seeing 0] (seeing 2000) ?_).mpr overloaded
    intro u member
    rcases List.mem_append.mp member with first | second
    · rw [List.mem_singleton.mp first, depth_seeing]
      rfl
    · rw [List.mem_singleton.mp second, depth_seeing]
      rfl
  · have short : ¬ StandsOut [seeing 0] (seeing 2000) := not_standsOut (by decide) _
    exact Bool.eq_false_iff.mpr fun routed => short ((isOverloadTransition_iff state).mp routed)

/-- While the queue stays short the routing is right. -/
theorem calm_ticks_routed_right :
    HasTick [seeing 10, seeing 20, seeing 30] [seeing 10] (seeing 20) (seeing 30) ∧
    ∀ history v next, HasTick [seeing 10, seeing 20, seeing 30] history v next →
      RoutedByOverload history v next := by
  refine ⟨⟨[], rfl⟩, ((routed_by_overload_iff [seeing 10, seeing 20, seeing 30]).2.1
    (by decide)).mpr ?_⟩
  rintro history v next ⟨rest, ticks⟩ ⟨deep, -⟩
  have member : v ∈ [seeing 10, seeing 20, seeing 30] := by
    rw [ticks]
    simp
  simp only [List.mem_cons, List.not_mem_nil, or_false] at member
  rcases member with rfl | rfl | rfl <;> simp [depth_seeing] at deep

end DqnSched

end NyaQueue
