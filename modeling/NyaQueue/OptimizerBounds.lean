import NyaQueue.ExactFloat
import NyaQueue.Optimizer
import NyaQueue.Lib.Runs

/-!
# The optimizer proposes valid configs only

Three tables have to agree: the ranges of the tunable parameters, the fields
and conversions of `SetParamByName`, and the bounds of the validator.
`defaults_admitted` compares them, and the rest is that a value between zero
and one stays inside its range through `Denormalize` and rounding, for every
history of actions.
-/

set_option autoImplicit false

namespace NyaQueue

/-! ## The validator by fields -/

/-- The rules of the validator, by the field they check. -/
def fieldRules : List (ConfigField × List Rule) := [
  (.segmentMaxBytes, [.gte (1024 * 1024), .lte (64 * 1024 * 1024)]),
  (.segmentMaxCount, [.gte 1]),
  (.retentionMaxBytes, [.gte (1024 * 1024)]),
  (.flushIntervalMs, [.gte 1, .lte 60000]),
  (.compressionType, [.gte 0, .lte 3]),
  (.maxConnections, [.gte 1, .lte 65535]),
  (.recvBufferBytes, [.gte 1024]),
  (.sendBufferBytes, [.gte 1024]),
  (.maxMessageBytes, [.gte 1024]),
  (.numNetworkGoroutines, [.gte 1, .lte 256]),
  (.numIOGoroutines, [.gte 1, .lte 256]),
  (.maxQueuedRequests, [.gte 1]),
  (.batchSize, [.gte 1]),
  (.batchMemoryBytes, [.gte 1024, .lte (64 * 1024 * 1024)]),
  (.fetchMinBytes, [.gte 1]),
  (.fetchMaxWaitMs, [.gte 1]),
  (.consumerSessionTimeoutMs, [.gte 1000])]

theorem configValidator_fields :
    configValidator.map (fun p => (p.value, p.rules)) =
      fieldRules.map fun entry => (entry.1.get, entry.2) := rfl

theorem Config.validate_ok_iff_fields (c : Config) : c.validate = .ok () ↔
    ∀ entry ∈ fieldRules, ∀ rule ∈ entry.2, rule.Holds (entry.1.get c) := by
  have properties : (∀ p ∈ configValidator, ∀ rule ∈ p.rules, rule.Holds (p.value c)) ↔
      ∀ pair ∈ configValidator.map (fun p => (p.value, p.rules)),
        ∀ rule ∈ pair.2, rule.Holds (pair.1 c) := by
    simp only [List.forall_mem_map]
  rw [c.validate_ok_iff, properties, configValidator_fields]
  simp only [List.forall_mem_map]

/-- A rule that every value of the range keeps. -/
def Rule.Admits (lo hi : Int) : Rule → Prop
  | .gte bound => bound ≤ lo
  | .lte bound => hi ≤ bound

instance ruleAdmitsDecidable (lo hi : Int) : ∀ rule : Rule, Decidable (rule.Admits lo hi)
  | .gte bound => inferInstanceAs (Decidable (bound ≤ lo))
  | .lte bound => inferInstanceAs (Decidable (hi ≤ bound))

theorem Rule.Admits.holds {lo hi v : Int} (above : lo ≤ v) (below : v ≤ hi) :
    ∀ {rule : Rule}, rule.Admits lo hi → rule.Holds v
  | .gte _, admits => Int.le_trans admits above
  | .lte _, admits => Int.le_trans below admits

/-- The validator accepts every value of the range for the field, and
`SetParamByName` rounds it. -/
def ConfigField.Admits (field : ConfigField) (lo hi : Int) : Prop :=
  (field ≠ .retentionMaxBytes ∧ field ≠ .retentionMaxAge) ∧
    ∀ entry ∈ fieldRules, entry.1 = field → ∀ rule ∈ entry.2, rule.Admits lo hi

instance admitsDecidable (field : ConfigField) (lo hi : Int) : Decidable (field.Admits lo hi) :=
  inferInstanceAs (Decidable (_ ∧ ∀ entry ∈ fieldRules, _ → ∀ rule ∈ entry.2, _))

theorem ConfigField.Admits.valid_set {field : ConfigField} {lo hi v : Int}
    (admits : field.Admits lo hi) (above : lo ≤ v) (below : v ≤ hi) {c : Config}
    (valid : c.validate = .ok ()) : (field.set v c).validate = .ok () := by
  rw [Config.validate_ok_iff_fields] at valid ⊢
  intro entry member rule listed
  by_cases same : entry.1 = field
  · rw [same, get_set_self]
    exact (admits.2 entry member same rule listed).holds above below
  · rw [get_set_ne same]
    exact valid entry member rule listed

/-! ## Values stay in their range -/

variable {F : Type} [FloatConv F]

open FloatArith FloatConv

/-- The range of a parameter has integer ends, and its field admits them. -/
def TunableParam.Admitted (p : TunableParam F) : Prop :=
  ∃ (field : ConfigField) (lo hi : Int), paramField p.name = some field ∧
    p.min = literal (lo : Rat) ∧ p.max = literal (hi : Rat) ∧ lo ≤ hi ∧ field.Admits lo hi

theorem defaults_admitted : ∀ p ∈ (defaultTunableParams : List (TunableParam F)), p.Admitted := by
  have admitted : ∀ (p : TunableParam F) (field : ConfigField) (lo hi : Int),
      paramField p.name = some field → p.min = literal (lo : Rat) → p.max = literal (hi : Rat) →
      lo ≤ hi ∧ field.Admits lo hi → p.Admitted :=
    fun p field lo hi named min max range => ⟨field, lo, hi, named, min, max, range⟩
  simp only [defaultTunableParams, List.forall_mem_cons]
  refine ⟨admitted _ .segmentMaxBytes (2 ^ 20) (64 * 2 ^ 20) rfl ?_ ?_ (by decide),
    admitted _ .segmentMaxCount 10 500 rfl ?_ ?_ (by decide),
    admitted _ .flushIntervalMs 100 10000 rfl ?_ ?_ (by decide),
    admitted _ .batchSize 1 1000 rfl ?_ ?_ (by decide),
    admitted _ .batchMemoryBytes 1024 (2 ^ 20) rfl ?_ ?_ (by decide),
    admitted _ .lingerMs 0 100 rfl ?_ ?_ (by decide),
    admitted _ .numIOGoroutines 1 32 rfl ?_ ?_ (by decide),
    admitted _ .numNetworkGoroutines 1 32 rfl ?_ ?_ (by decide),
    admitted _ .compressionType 0 3 rfl ?_ ?_ (by decide),
    admitted _ .maxMessageBytes 1024 (10 * 2 ^ 20) rfl ?_ ?_ (by decide), by simp⟩
  all_goals norm_num

section
variable [Field F] [LinearOrder F] [IsStrictOrderedRing F] [FloorRing F] [ExactArith F]

open ExactArith

omit [IsStrictOrderedRing F] in
theorem literal_zero : (literal 0 : F) = 0 := by
  rw [literal_eq, Rat.cast_zero]

omit [IsStrictOrderedRing F] in
theorem literal_one : (literal 1 : F) = 1 := by
  rw [literal_eq, Rat.cast_one]

theorem actionTarget_mem (a : F) : actionTarget a ∈ Set.Icc (0 : F) 1 := by
  simp only [actionTarget, lt_iff, literal_zero, literal_one]
  constructor
  · split_ifs <;> linarith
  · split_ifs <;> linarith

theorem moveVals_mem (hysteresis : F) (vals : List F) : ∀ action : List F,
    (∀ v ∈ vals, v ∈ Set.Icc (0 : F) 1) →
      ∀ v ∈ (moveVals hysteresis vals action).1, v ∈ Set.Icc (0 : F) 1 := by
  induction vals with
  | nil => exact fun action inside => inside
  | cons v vals ih =>
    intro action inside
    obtain ⟨here, later⟩ := List.forall_mem_cons.mp inside
    cases action with
    | nil => exact inside
    | cons a action =>
      rw [moveVals]
      split
      · exact List.forall_mem_cons.mpr ⟨here, ih action later⟩
      · exact List.forall_mem_cons.mpr ⟨actionTarget_mem a, ih action later⟩

theorem denormalize_mem {v : F} {lo hi : Int} (ordered : lo ≤ hi)
    (unit : v ∈ Set.Icc (0 : F) 1) :
    denormalize v (literal lo) (literal hi) ∈ Set.Icc (lo : F) hi := by
  obtain ⟨nonneg, le_one⟩ := unit
  have width : (0 : F) ≤ (hi : F) - lo := by
    have : (lo : F) ≤ hi := by exact_mod_cast ordered
    linarith
  simp only [denormalize, add_eq, mul_eq, sub_eq, literal_eq, Rat.cast_intCast]
  constructor
  · have := mul_nonneg nonneg width
    linarith
  · have := mul_le_mul_of_nonneg_right le_one width
    linarith

theorem TunableParam.Admitted.valid_set {p : TunableParam F} (admitted : p.Admitted) {v : F}
    (unit : v ∈ Set.Icc (0 : F) 1) {c : Config} (valid : c.validate = .ok ()) :
    (setParamByName c p.name (denormalize v p.min p.max)).validate = .ok () := by
  obtain ⟨field, lo, hi, named, min, max, ordered, admits⟩ := admitted
  obtain ⟨above, below⟩ := denormalize_mem ordered unit
  have rounded := roundHalfAway_mem above below
  have converted : field.convert (denormalize v p.min p.max) =
      roundHalfAway (denormalize v (literal lo) (literal hi)) := by
    rw [ConfigField.convert, if_neg (by simp [admits.1]), ExactArith.round_eq, min, max]
  simp only [setParamByName, named, converted]
  exact admits.valid_set rounded.1 rounded.2 valid

theorem writeParams_valid (params : List (TunableParam F)) : ∀ (vals : List F) (c : Config),
    (∀ p ∈ params, p.Admitted) → (∀ v ∈ vals, v ∈ Set.Icc (0 : F) 1) → c.validate = .ok () →
      (writeParams c params vals).validate = .ok () := by
  induction params with
  | nil => exact fun vals c _ _ valid => valid
  | cons p params ih =>
    intro vals c admitted inside valid
    cases vals with
    | nil => exact valid
    | cons v vals =>
      obtain ⟨here, later⟩ := List.forall_mem_cons.mp admitted
      obtain ⟨unit, units⟩ := List.forall_mem_cons.mp inside
      exact ih vals _ later units (here.valid_set unit valid)

/-! ## Every history of actions -/

/-- Admitted parameters with values between zero and one. -/
structure Optimizer.InRange (o : Optimizer F) : Prop where
  params : ∀ p ∈ o.params, p.Admitted
  vals : ∀ v ∈ o.currentVals, v ∈ Set.Icc (0 : F) 1

theorem Optimizer.InRange.applyAction {o : Optimizer F} (inRange : o.InRange) (lib : CodecLibrary)
    (b : Broker) (action : List F) (now : Time) : (o.applyAction lib b action now).1.InRange := by
  have moved : (o.withVals action).InRange :=
    ⟨inRange.params, moveVals_mem o.hysteresis o.currentVals action inRange.vals⟩
  exact Optimizer.applyAction_cases (motive := fun result => result.1.InRange)
    (fun _ => inRange) (fun _ _ => moved) (fun _ _ => ⟨moved.params, moved.vals⟩)

theorem Optimizer.inRange_new (b : Broker) {calibrated : List (TunableParam F)}
    (admitted : ∀ p ∈ calibrated, p.Admitted) (optCfg : OptimizerConfig F) :
    (Optimizer.new b calibrated optCfg).InRange := by
  refine ⟨fun p active => admitted p (List.mem_of_mem_filter active), fun v member => ?_⟩
  rw [List.eq_of_mem_replicate member, Set.mem_Icc, literal_eq]
  norm_num

/-- `calibrated` is a subset of the default parameters, with weights of its own. -/
def FromDefaults (calibrated : List (TunableParam F)) : Prop :=
  ∀ p ∈ calibrated, ∃ q ∈ (defaultTunableParams : List (TunableParam F)),
    p.name = q.name ∧ p.min = q.min ∧ p.max = q.max

omit [Field F] [LinearOrder F] [IsStrictOrderedRing F] [FloorRing F] [ExactArith F] in
theorem FromDefaults.admitted {calibrated : List (TunableParam F)}
    (fromDefaults : FromDefaults calibrated) : ∀ p ∈ calibrated, p.Admitted := by
  intro p member
  obtain ⟨q, default, name, min, max⟩ := fromDefaults p member
  obtain ⟨field, lo, hi, named, low, high, range⟩ := defaults_admitted q default
  exact ⟨field, lo, hi, name ▸ named, min.trans low, max.trans high, range⟩

/-- In exact arithmetic, after any history of actions, the config that an action
builds from a valid config is valid, and the broker does not refuse it. -/
theorem proposals_pass_validate (lib : CodecLibrary) (start : Broker)
    (calibrated : List (TunableParam F)) (fromDefaults : FromDefaults calibrated)
    (optCfg : OptimizerConfig F) (history : List (ActionCall F)) (b : Broker)
    (valid : b.snap.cfg.validate = .ok ()) (action : List F) :
    let o := (Runs.final (Tuning.applyAction lib) (Tuning.new start calibrated optCfg) history).opt
    (o.proposal b.snap.cfg action).validate = .ok () ∧
      (b.applyConfig lib (o.proposal b.snap.cfg action)).1 = .ok () := by
  intro o
  have inRange : o.InRange :=
    Runs.invariant_final (fun (s : Tuning F) call (inRange : s.opt.InRange) =>
        inRange.applyAction lib s.broker call.action call.now)
      history _ (Optimizer.inRange_new start fromDefaults.admitted optCfg)
  have proposed : (o.proposal b.snap.cfg action).validate = .ok () :=
    writeParams_valid o.params _ _ inRange.params
      (moveVals_mem o.hysteresis o.currentVals action inRange.vals) valid
  refine ⟨proposed, ?_⟩
  unfold Broker.applyConfig
  simp only [proposed]
  split <;> rfl

end

/-- From the default config and all default parameters, after an action that
moves everything to the upper ends, the one that moves everything to the lower
ends is proposed and accepted. -/
theorem proposals_pass_validate_defaults :
    let b := Broker.new sampleLibrary defaultConfig none
    let up : ActionCall Rat := ⟨List.replicate 10 1, 0⟩
    let o := (Runs.final (Tuning.applyAction sampleLibrary)
      (Tuning.new b defaultTunableParams ⟨32, 20, 1 / 10⟩) [up]).opt
    (o.proposal b.snap.cfg (List.replicate 10 (-1))).validate = .ok () ∧
      (b.applyConfig sampleLibrary (o.proposal b.snap.cfg (List.replicate 10 (-1)))).1 = .ok () :=
  proposals_pass_validate sampleLibrary (Broker.new sampleLibrary defaultConfig none)
    defaultTunableParams (fun p member => ⟨p, member, rfl, rfl, rfl⟩) ⟨32, 20, 1 / 10⟩
    [⟨List.replicate 10 1, 0⟩] (Broker.new sampleLibrary defaultConfig none) defaultConfig_valid
    (List.replicate 10 (-1))

end NyaQueue
