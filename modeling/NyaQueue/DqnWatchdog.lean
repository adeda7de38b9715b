import NyaQueue.Balancer
import NyaQueue.Lib.Latch

/-!
# The fallback watchdog of the DQN balancer

`OnMetrics` judges each tick and drives two flags with one pair of counters:
`fallbackActive` is a latch that three bad ticks in a row switch on, and
`epsilonSuppressed` one that a single bad tick switches on; ten good ticks in a
row switch both off.  A verdict depends on the settings and on the throughput
last reported by `SetBaseThroughput`, so the history of verdicts is a function
of the calls alone.
-/

set_option autoImplicit false

namespace NyaQueue

open FloatArith

variable {F : Type} [FloatConv F]

/-- The calls a balancer gets. -/
inductive DqnCall (F : Type) where
  | onMetrics (m : Metrics F)
  | setBaseThroughput (t : F)
  | selectPartition (numPartitions : Nat) (draws : Draws F)
  | onPublishComplete (partition : Nat)
  | policyTick (qValues : List F)

/-- Throughput below a share of a positive base, or a mean load above a positive
threshold. -/
def badTick (fallbackRatio loadThreshold : F) (base : Int64) (m : Metrics F) : Bool :=
  let baseTP : F := ofInt base.toInt
  (lt (literal 0) baseTP && lt m.throughput (mul fallbackRatio baseTP)) ||
    (lt (literal 0) loadThreshold && !m.partitionLoads.isEmpty &&
      lt loadThreshold (avgLoad m.partitionLoads))

/-- The verdicts on the ticks among the calls, in their order. -/
def verdicts (fallbackRatio loadThreshold : F) : Int64 → List (DqnCall F) → List Bool
  | _, [] => []
  | base, .onMetrics m :: rest =>
      badTick fallbackRatio loadThreshold base m :: verdicts fallbackRatio loadThreshold base rest
  | _, .setBaseThroughput t :: rest =>
      verdicts fallbackRatio loadThreshold (FloatConv.toInt64 t) rest
  | base, .selectPartition _ _ :: rest => verdicts fallbackRatio loadThreshold base rest
  | base, .onPublishComplete _ :: rest => verdicts fallbackRatio loadThreshold base rest
  | base, .policyTick _ :: rest => verdicts fallbackRatio loadThreshold base rest

namespace DQNBalancer

def call (d : DQNBalancer F) : DqnCall F → DQNBalancer F
  | .onMetrics m => d.onMetrics m
  | .setBaseThroughput t => d.setBaseThroughput t
  | .selectPartition numPartitions draws => (d.selectPartition numPartitions draws).2
  | .onPublishComplete partition => d.onPublishComplete partition
  | .policyTick qValues => d.policyTick qValues

/-! ## The flags as latches -/

def fallbackLatch (d : DQNBalancer F) : Latch.State :=
  ⟨d.consecutiveFallbackTicks, d.consecutiveRecoveryTicks, d.fallbackActive⟩

def explorationLatch (d : DQNBalancer F) : Latch.State :=
  ⟨d.consecutiveFallbackTicks, d.consecutiveRecoveryTicks, d.epsilonSuppressed⟩

/-- What the watchdog knows after the ticks judged by `history`. -/
structure Watches (history : List Bool) (d : DQNBalancer F) : Prop where
  fallback : Latch.Tracks fallbackEnterTicks fallbackExitTicks history d.fallbackLatch
  exploration : Latch.Tracks 1 fallbackExitTicks history d.explorationLatch

/-- The two balancers agree on everything the watchdog reads and writes. -/
structure SameWatch (d d' : DQNBalancer F) : Prop where
  fallbackRatio : d'.fallbackRatio = d.fallbackRatio
  loadThreshold : d'.loadThreshold = d.loadThreshold
  baseThroughput : d'.baseThroughput = d.baseThroughput
  fallbackLatch : d'.fallbackLatch = d.fallbackLatch
  explorationLatch : d'.explorationLatch = d.explorationLatch

variable (d : DQNBalancer F)

omit [FloatConv F] in
theorem take_sameWatch (counters : List Int64) (choice : Option Nat) :
    d.SameWatch (d.take counters choice).2 := by
  cases choice with
  | none => exact ⟨rfl, rfl, rfl, rfl, rfl⟩
  | some idx =>
    rw [take]
    split <;> exact ⟨rfl, rfl, rfl, rfl, rfl⟩

theorem selectFallback_sameWatch (counters : List Int64) (numPartitions : Nat) :
    d.SameWatch (d.selectFallback counters numPartitions).2 := by
  obtain ⟨ratio, threshold, base, fallback, exploration⟩ :=
    take_sameWatch { d with fallbackRR := (d.fallbackRR.selectPartition numPartitions).2 } counters
      (d.fallbackRR.selectPartition numPartitions).1
  exact ⟨ratio, threshold, base, fallback, exploration⟩

theorem selectPartition_sameWatch (numPartitions : Nat) (draws : Draws F) :
    d.SameWatch (d.selectPartition numPartitions draws).2 := by
  unfold selectPartition
  split
  · exact d.selectFallback_sameWatch _ numPartitions
  · split
    · exact d.take_sameWatch _ _
    · split
      · exact d.selectFallback_sameWatch _ numPartitions
      · split
        · exact d.take_sameWatch _ _
        · exact d.selectFallback_sameWatch _ numPartitions

theorem onMetrics_latches (m : Metrics F) :
    (d.onMetrics m).fallbackLatch = Latch.step fallbackEnterTicks fallbackExitTicks d.fallbackLatch
        (badTick d.fallbackRatio d.loadThreshold d.baseThroughput m) ∧
      (d.onMetrics m).explorationLatch = Latch.step 1 fallbackExitTicks d.explorationLatch
        (badTick d.fallbackRatio d.loadThreshold d.baseThroughput m) := by
  have verdict : { d with msgRate := m.msgRate }.shouldFallback m =
      badTick d.fallbackRatio d.loadThreshold d.baseThroughput m := rfl
  unfold onMetrics
  simp only [verdict]
  cases badTick d.fallbackRatio d.loadThreshold d.baseThroughput m with
  | true => exact ⟨rfl, by simp [explorationLatch, Latch.step]⟩
  | false => exact ⟨rfl, rfl⟩

theorem onMetrics_settings (m : Metrics F) :
    (d.onMetrics m).fallbackRatio = d.fallbackRatio ∧
      (d.onMetrics m).loadThreshold = d.loadThreshold ∧
      (d.onMetrics m).baseThroughput = d.baseThroughput := by
  unfold onMetrics
  dsimp only
  split <;> exact ⟨rfl, rfl, rfl⟩

theorem watches_new (epsilon fallbackRatio loadThreshold : F) :
    (new epsilon fallbackRatio loadThreshold).Watches [] :=
  ⟨Latch.tracks_start (by decide), Latch.tracks_start (by decide)⟩

theorem Watches.onMetrics {history : List Bool} {d : DQNBalancer F} (watches : d.Watches history)
    (m : Metrics F) : (d.onMetrics m).Watches
      (history ++ [badTick d.fallbackRatio d.loadThreshold d.baseThroughput m]) := by
  obtain ⟨fallback, exploration⟩ := d.onMetrics_latches m
  constructor
  · rw [fallback]
    exact watches.fallback.step (by decide) (by decide) _
  · rw [exploration]
    exact watches.exploration.step (by decide) (by decide) _

omit [FloatConv F] in
theorem Watches.same {history : List Bool} {d d' : DQNBalancer F} (watches : d.Watches history)
    (same : d.SameWatch d') : d'.Watches history := by
  constructor
  · rw [same.fallbackLatch]
    exact watches.fallback
  · rw [same.explorationLatch]
    exact watches.exploration

theorem Watches.run (calls : List (DqnCall F)) : ∀ {history : List Bool} {d : DQNBalancer F},
    d.Watches history → (Runs.final call d calls).Watches
      (history ++ verdicts d.fallbackRatio d.loadThreshold d.baseThroughput calls) := by
  induction calls with
  | nil =>
    intro history d watches
    simpa [Runs.final, verdicts] using watches
  | cons next rest ih =>
    intro history d watches
    rw [Runs.final_cons]
    have quiet : d.SameWatch (d.call next) →
        (Runs.final call (d.call next) rest).Watches
          (history ++ verdicts d.fallbackRatio d.loadThreshold d.baseThroughput rest) := by
      intro same
      have later := ih (watches.same same)
      rwa [same.fallbackRatio, same.loadThreshold, same.baseThroughput] at later
    cases next with
    | onMetrics m =>
      obtain ⟨ratio, threshold, base⟩ := d.onMetrics_settings m
      have later := ih (watches.onMetrics m)
      rw [ratio, threshold, base, List.append_assoc, List.singleton_append] at later
      exact later
    | setBaseThroughput t =>
      have kept : (d.setBaseThroughput t).Watches history :=
        ⟨watches.fallback, watches.exploration⟩
      exact ih kept
    | selectPartition numPartitions draws =>
      exact quiet (d.selectPartition_sameWatch numPartitions draws)
    | onPublishComplete partition => exact quiet ⟨rfl, rfl, rfl, rfl, rfl⟩
    | policyTick qValues => exact quiet ⟨rfl, rfl, rfl, rfl, rfl⟩

/-- After any calls, the fallback is active exactly if three bad ticks came in a
row and no ten good ones in a row since; exploration is suppressed exactly if
fewer than ten good ticks followed the last bad one; and the fallback never
runs without suppressing exploration. -/
theorem watchdog_follows_history (epsilon fallbackRatio loadThreshold : F)
    (calls : List (DqnCall F)) :
    let d := Runs.final call (new epsilon fallbackRatio loadThreshold) calls
    let history := verdicts fallbackRatio loadThreshold 0 calls
    (d.fallbackActive = true ↔ ∃ older later,
      history = older ++ List.replicate 3 true ++ later ∧
        ¬ List.replicate 10 false <:+: later) ∧
    (d.epsilonSuppressed = true ↔ ∃ older good,
      history = older ++ true :: good ∧ (∀ verdict ∈ good, verdict = false) ∧
        good.length < 10) ∧
    (d.fallbackActive = true → d.epsilonSuppressed = true) := by
  intro d history
  have watches : d.Watches history :=
    (watches_new epsilon fallbackRatio loadThreshold).run calls
  refine ⟨watches.fallback.on, ?_, ?_⟩
  · exact watches.exploration.on.trans (Latch.held_one_iff (by decide) history)
  · intro active
    have held := watches.fallback.on.mp active
    exact watches.exploration.on.mpr (held.mono (by decide))

end DQNBalancer

end NyaQueue
