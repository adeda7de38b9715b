import NyaQueue.ExactFloat
import NyaQueue.Optimizer
import NyaQueue.Lib.Latch

/-!
# The emergency rollback

A run of the optimizer is a sequence of ticks, each with the metrics it reads,
the action the network answers and the clock.  The rollback fires on the
second of two ticks in a row with low delivery, and from then on the config is
the one the optimizer was created with: the check comes before the action in a
step, and no action is applied after a rollback.
-/

set_option autoImplicit false

namespace NyaQueue

variable {F : Type}

structure OptimizerTick (F : Type) where
  metrics : DeliveryMetrics F
  action : List F
  now : Time

variable [FloatConv F]

def lowTicks (ticks : List (OptimizerTick F)) : List Bool :=
  ticks.map fun t => Optimizer.lowDelivery t.metrics

namespace Tuning

def tick (lib : CodecLibrary) (s : Tuning F) (t : OptimizerTick F) : Tuning F :=
  let stepped := s.opt.step lib s.broker t.metrics t.action t.now
  ⟨stepped.1, stepped.2⟩

/-- The state after ticks of which `lows` says whether delivery was low. -/
structure Follows (start : Config) (lows : List Bool) (s : Tuning F) : Prop where
  startConfig : s.opt.startConfig = start
  inARow : s.opt.rolledBack = false →
    Latch.TrailingRun true s.opt.lowDeliveryTicksInARow lows
  rolledBack : s.opt.rolledBack = true ↔ List.replicate emergencyRollbackN true <:+: lows
  config : s.opt.rolledBack = true → s.broker.snap.cfg = start

theorem follows_new (b : Broker) (calibrated : List (TunableParam F))
    (optCfg : OptimizerConfig F) : (new b calibrated optCfg).Follows b.snap.cfg [] where
  startConfig := rfl
  inARow _ := Latch.trailingRun_nil true
  rolledBack := by simp [new, Optimizer.new, emergencyRollbackN]
  config := by simp [new, Optimizer.new]

variable {start : Config} {lows : List Bool} {s : Tuning F}

theorem Follows.nextInARow (follows : s.Follows start lows) (going : s.opt.rolledBack = false)
    (m : DeliveryMetrics F) :
    Latch.TrailingRun true (s.opt.nextInARow m) (lows ++ [Optimizer.lowDelivery m]) := by
  unfold Optimizer.nextInARow
  cases Optimizer.lowDelivery m with
  | true => exact (follows.inARow going).concat_same
  | false => exact Latch.trailingRun_concat_ne (by decide) lows

theorem applyAction_frame (lib : CodecLibrary) (o : Optimizer F) (b : Broker) (action : List F)
    (now : Time) :
    (o.applyAction lib b action now).1.startConfig = o.startConfig ∧
      (o.applyAction lib b action now).1.lowDeliveryTicksInARow = o.lowDeliveryTicksInARow ∧
      (o.applyAction lib b action now).1.rolledBack = o.rolledBack :=
  Optimizer.applyAction_cases
    (motive := fun result => result.1.startConfig = o.startConfig ∧
      result.1.lowDeliveryTicksInARow = o.lowDeliveryTicksInARow ∧
      result.1.rolledBack = o.rolledBack)
    (fun _ => ⟨rfl, rfl, rfl⟩) (fun _ _ => ⟨rfl, rfl, rfl⟩) (fun _ _ => ⟨rfl, rfl, rfl⟩)

theorem Follows.counted (follows : s.Follows start lows) (going : s.opt.rolledBack = false)
    {m : DeliveryMetrics F} (few : s.opt.nextInARow m < emergencyRollbackN) {o : Optimizer F}
    (b : Broker) (startConfig : o.startConfig = s.opt.startConfig)
    (inARow : o.lowDeliveryTicksInARow = s.opt.nextInARow m)
    (rolledBack : o.rolledBack = s.opt.rolledBack) :
    (Tuning.mk o b).Follows start (lows ++ [Optimizer.lowDelivery m]) := by
  have run := follows.nextInARow going m
  have before : ¬ List.replicate emergencyRollbackN true <:+: lows := by
    rw [← follows.rolledBack, going]
    exact Bool.false_ne_true
  have here : ¬ List.replicate emergencyRollbackN true <:+ lows ++ [Optimizer.lowDelivery m] := by
    rw [run]
    omega
  refine ⟨startConfig.trans follows.startConfig, fun _ => inARow ▸ run, ?_, ?_⟩
  · rw [rolledBack, going, List.infix_concat_iff]
    simp [before, here]
  · intro fired
    rw [rolledBack, going] at fired
    cases fired

theorem Follows.tick {lib : CodecLibrary} (valid : start.validate = .ok ())
    (follows : s.Follows start lows) (t : OptimizerTick F) :
    (s.tick lib t).Follows start (lows ++ [Optimizer.lowDelivery t.metrics]) := by
  refine Optimizer.step_cases
    (motive := fun result => (Tuning.mk result.1 result.2).Follows start
      (lows ++ [Optimizer.lowDelivery t.metrics])) ?_ ?_ ?_ ?_
  · intro finished
    have fired := follows.rolledBack.mp finished
    refine ⟨follows.startConfig, fun going => ?_, ?_, fun _ => follows.config finished⟩
    · rw [finished] at going
      cases going
    · rw [List.infix_concat_iff]
      simp [finished, fired]
  · intro going enough
    have fired := (follows.nextInARow going t.metrics emergencyRollbackN).mpr enough
    refine ⟨follows.startConfig, fun unfired => ?_, ?_, fun _ => ?_⟩
    · cases unfired
    · simp [List.infix_concat_iff, fired]
    · rw [Broker.applyConfig_cfg, follows.startConfig, if_pos valid]
  · intro going few
    exact follows.counted going few s.broker rfl rfl rfl
  · intro going few
    obtain ⟨startConfig, inARow, rolledBack⟩ :=
      applyAction_frame lib (s.opt.counted t.metrics) s.broker t.action t.now
    exact follows.counted going few _ startConfig inARow rolledBack

theorem Follows.run {lib : CodecLibrary} (valid : start.validate = .ok ())
    (ticks : List (OptimizerTick F)) : ∀ {lows : List Bool} {s : Tuning F},
    s.Follows start lows →
      (Runs.final (Tuning.tick lib) s ticks).Follows start (lows ++ lowTicks ticks) := by
  induction ticks with
  | nil =>
    intro lows s follows
    simpa [Runs.final, lowTicks] using follows
  | cons t rest ih =>
    intro lows s follows
    have next : (s.tick lib t).Follows start (lows ++ [Optimizer.lowDelivery t.metrics]) :=
      follows.tick valid t
    have later := ih next
    rw [List.append_assoc, List.singleton_append] at later
    exact later

/-- The rollback happens exactly at the first tick that is the second of two in
a row with low delivery; from that tick on the config is the one captured by
`NewOptimizer`, whatever ticks follow. -/
theorem rollback_exact_and_final (lib : CodecLibrary) (b : Broker)
    (valid : b.snap.cfg.validate = .ok ()) (calibrated : List (TunableParam F))
    (optCfg : OptimizerConfig F) (before : List (OptimizerTick F)) :
    let run := Runs.final (tick lib) (new b calibrated optCfg)
    (∀ next, (run before).opt.rolledBack = false ∧
        (run (before ++ [next])).opt.rolledBack = true ↔
      ¬ [true, true] <:+: lowTicks before ∧ [true, true] <:+ lowTicks (before ++ [next])) ∧
    ([true, true] <:+: lowTicks before → ∀ later,
      (run (before ++ later)).broker.snap.cfg = (Optimizer.new b calibrated optCfg).startConfig) := by
  intro run
  have follows : ∀ ticks, (run ticks).Follows b.snap.cfg (lowTicks ticks) :=
    fun ticks => (follows_new b calibrated optCfg).run valid ticks
  have fired : ∀ ticks, (run ticks).opt.rolledBack = true ↔ [true, true] <:+: lowTicks ticks :=
    fun ticks => (follows ticks).rolledBack
  constructor
  · intro next
    have split : lowTicks (before ++ [next]) =
        lowTicks before ++ [Optimizer.lowDelivery next.metrics] := List.map_append
    rw [← Bool.not_eq_true, fired, fired, split, List.infix_concat_iff]
    constructor
    · rintro ⟨fresh, here | earlier⟩
      · exact ⟨fresh, here⟩
      · exact absurd earlier fresh
    · rintro ⟨fresh, here⟩
      exact ⟨fresh, .inl here⟩
  · intro earlier later
    have still : [true, true] <:+: lowTicks (before ++ later) := by
      rw [lowTicks, List.map_append]
      exact earlier.trans (List.prefix_append _ _).isInfix
    exact (follows _).config ((fired _).mpr still)

/-- A tick on which three messages in ten are delivered. -/
def lowTick : OptimizerTick Rat := ⟨⟨100, 90, 3 / 10⟩, List.replicate 10 1, 0⟩

/-- A tick on which nine messages in ten are delivered. -/
def healthyTick : OptimizerTick Rat := ⟨⟨100, 90, 9 / 10⟩, List.replicate 10 1, 0⟩

theorem rollback_after_recovery :
    let b := Broker.new sampleLibrary defaultConfig none
    let run := Runs.final (tick sampleLibrary) (new b defaultTunableParams ⟨32, 1, 1 / 10⟩)
    ((run [lowTick, healthyTick, lowTick]).opt.rolledBack = false ∧
      (run [lowTick, healthyTick, lowTick, lowTick]).opt.rolledBack = true) ∧
    ∀ later, (run ([lowTick, healthyTick, lowTick, lowTick] ++ later)).broker.snap.cfg =
      defaultConfig := by
  intro b run
  have exact_at := rollback_exact_and_final sampleLibrary b defaultConfig_valid
    defaultTunableParams ⟨32, 1, 1 / 10⟩ [lowTick, healthyTick, lowTick]
  have final_after := rollback_exact_and_final sampleLibrary b defaultConfig_valid
    defaultTunableParams ⟨32, 1, 1 / 10⟩ [lowTick, healthyTick, lowTick, lowTick]
  exact ⟨(exact_at.1 lowTick).mpr (by decide +kernel), final_after.2 (by decide +kernel)⟩

end Tuning

end NyaQueue
