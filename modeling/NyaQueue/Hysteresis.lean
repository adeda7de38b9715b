import NyaQueue.ExactFloat
import NyaQueue.Optimizer
import NyaQueue.Lib.Runs

/-!
# Hysteresis and the config in force

The optimizer compares a target with its own value for the parameter, which
starts at one half whatever the config says, and once a single value has moved
it writes all of them.  So a field can change although its target is close to
the value in force.  `Allowed` says for which calls it cannot, and this is
exact for calls whose config the broker accepts.
-/

set_option autoImplicit false

namespace NyaQueue

variable {F : Type}

/-- A parameter with the optimizer's value for it and the target that an action
gives it, if the action is long enough. -/
structure Slot (F : Type) where
  param : TunableParam F
  current : F
  target : Option F

variable [FloatConv F]

open FloatArith FloatConv

namespace Slot

def field (slot : Slot F) : Option ConfigField := paramField slot.param.name

/-- The target is at least the hysteresis away from the optimizer's value. -/
def moves (hysteresis : F) (slot : Slot F) : Bool :=
  slot.target.any fun t => !within hysteresis t slot.current

/-- The optimizer's value with the target taken over if it is far enough away. -/
def settled (hysteresis : F) (slot : Slot F) : F :=
  if slot.moves hysteresis then slot.target.getD slot.current else slot.current

/-- What a value of the parameter comes to in the config. -/
def written (slot : Slot F) (field : ConfigField) (v : F) : Int :=
  field.convert (denormalize v slot.param.min slot.param.max)

/-- The target is at least the hysteresis away from the normalised value in force. -/
def far (hysteresis : F) (cfg : Config) (field : ConfigField) (slot : Slot F) : Bool :=
  slot.target.any fun t => !within hysteresis t
    (normalize (ofInt (field.get cfg)) slot.param.min slot.param.max)

/-- The config has value `v` of the parameter in force. -/
def InForce (cfg : Config) (field : ConfigField) (slot : Slot F) (v : F) : Prop :=
  slot.written field v = field.get cfg

/-- The target is far from the value in force; or it is near the optimizer's
own value, and that one is in force; or it is far from the optimizer's own
value, and in force itself. -/
def Agrees (hysteresis : F) (cfg : Config) (slot : Slot F) : Prop :=
  ∀ field, slot.field = some field → slot.far hysteresis cfg field = true ∨
    (slot.moves hysteresis = false ∧ slot.InForce cfg field slot.current) ∨
    (slot.moves hysteresis = true ∧ slot.InForce cfg field (slot.target.getD slot.current))

theorem settled_inForce_iff (hysteresis : F) (cfg : Config) (field : ConfigField)
    (slot : Slot F) : slot.InForce cfg field (slot.settled hysteresis) ↔
      (slot.moves hysteresis = false ∧ slot.InForce cfg field slot.current) ∨
      (slot.moves hysteresis = true ∧
        slot.InForce cfg field (slot.target.getD slot.current)) := by
  unfold settled
  cases slot.moves hysteresis <;> simp

end Slot

def slots : List (TunableParam F) → List F → List F → List (Slot F)
  | p :: params, v :: vals, action =>
      ⟨p, v, action.head?.map actionTarget⟩ :: slots params vals action.tail
  | _, _, _ => []

def Optimizer.slots (o : Optimizer F) (action : List F) : List (Slot F) :=
  NyaQueue.slots o.params o.currentVals action

/-- No two parameters write the same field. -/
def DistinctFields (params : List (TunableParam F)) : Prop :=
  (params.filterMap fun p => paramField p.name).Nodup

/-! ## The loops by slots -/

variable (hysteresis : F) (params : List (TunableParam F))

theorem moveVals_eq_slots :
    ∀ vals action : List F, vals.length = params.length →
      moveVals hysteresis vals action =
        ((slots params vals action).map (Slot.settled hysteresis),
          (slots params vals action).any (Slot.moves hysteresis)) := by
  induction params with
  | nil =>
    intro vals action sized
    rw [List.length_eq_zero_iff.mp sized]
    rfl
  | cons p params ih =>
    intro vals action sized
    cases vals with
    | nil => cases sized
    | cons v vals =>
      have later := ih vals action.tail (Nat.succ.inj sized)
      cases action with
      | nil =>
        have idle : moveVals hysteresis vals [] = (vals, false) := by
          cases vals <;> rfl
        rw [List.tail_nil, idle] at later
        obtain ⟨same, still⟩ := Prod.mk.inj later
        simp [moveVals, slots, Slot.settled, Slot.moves, ← same, ← still]
      | cons a action =>
        rw [List.tail_cons] at later
        simp only [moveVals, slots, later, List.head?_cons, Option.map_some, List.tail_cons,
          List.map_cons, List.any_cons, Slot.settled, Slot.moves, Option.any_some,
          Option.getD_some]
        by_cases near : within hysteresis (actionTarget a) v = true <;> simp [near]

/-- The config after the values of all slots have been written. -/
def writeSlots (hysteresis : F) (cfg : Config) (list : List (Slot F)) : Config :=
  list.foldl (fun cfg slot => setParamByName cfg slot.param.name
    (denormalize (slot.settled hysteresis) slot.param.min slot.param.max)) cfg

theorem writeParams_eq_slots :
    ∀ (vals action : List F) (cfg : Config), vals.length = params.length →
      writeParams cfg params ((slots params vals action).map (Slot.settled hysteresis)) =
        writeSlots hysteresis cfg (slots params vals action) := by
  induction params with
  | nil => exact fun vals action cfg _ => rfl
  | cons p params ih =>
    intro vals action cfg sized
    cases vals with
    | nil => cases sized
    | cons v vals => exact ih vals action.tail _ (Nat.succ.inj sized)

theorem Optimizer.proposal_eq_slots (o : Optimizer F) (cfg : Config) (action : List F) :
    o.proposal cfg action = writeSlots o.hysteresis cfg (o.slots action) := by
  rw [proposal, moved, moveVals_eq_slots o.hysteresis o.params _ _ o.sized]
  exact writeParams_eq_slots o.hysteresis o.params _ _ cfg o.sized

theorem Optimizer.moved_eq_slots (o : Optimizer F) (action : List F) :
    (o.moved action).2 = (o.slots action).any (Slot.moves o.hysteresis) := by
  rw [Optimizer.moved, moveVals_eq_slots o.hysteresis o.params _ _ o.sized]
  rfl

theorem slots_fields : ∀ vals action : List F,
    vals.length = params.length → (slots params vals action).filterMap Slot.field =
      params.filterMap fun p => paramField p.name := by
  induction params with
  | nil => exact fun vals action _ => rfl
  | cons p params ih =>
    intro vals action sized
    cases vals with
    | nil => cases sized
    | cons v vals =>
      have later := ih vals action.tail (Nat.succ.inj sized)
      simp only [slots, List.filterMap_cons, later]
      rfl

/-! ## What writing does to a field -/

theorem setParamByName_get (cfg : Config) (name : String) (val : F) (field : ConfigField) :
    field.get (setParamByName cfg name val) =
      if paramField name = some field then field.convert val else field.get cfg := by
  unfold setParamByName
  cases named : paramField name with
  | none => simp
  | some other =>
    by_cases same : other = field
    · simp [same]
    · simp [ConfigField.get_set_ne (Ne.symm same), same]

theorem setParamByName_syncPolicy (cfg : Config) (name : String) (val : F) :
    (setParamByName cfg name val).syncPolicy = cfg.syncPolicy := by
  unfold setParamByName
  cases paramField name <;> simp

theorem writeSlots_syncPolicy (list : List (Slot F)) :
    ∀ cfg : Config, (writeSlots hysteresis cfg list).syncPolicy = cfg.syncPolicy := by
  induction list with
  | nil => exact fun cfg => rfl
  | cons slot rest ih =>
    intro cfg
    exact (ih _).trans (setParamByName_syncPolicy cfg _ _)

theorem writeSlots_get_cases (field : ConfigField) (list : List (Slot F)) :
    ∀ cfg : Config, field.get (writeSlots hysteresis cfg list) = field.get cfg ∨
      ∃ slot ∈ list, slot.field = some field ∧ field.get (writeSlots hysteresis cfg list) =
        slot.written field (slot.settled hysteresis) := by
  induction list with
  | nil => exact fun cfg => .inl rfl
  | cons slot rest ih =>
    intro cfg
    rcases ih (setParamByName cfg slot.param.name
      (denormalize (slot.settled hysteresis) slot.param.min slot.param.max)) with
      kept | ⟨later, member, named, value⟩
    · rw [setParamByName_get] at kept
      by_cases named : slot.field = some field
      · exact .inr ⟨slot, List.mem_cons_self, named, kept.trans (if_pos named)⟩
      · exact .inl (kept.trans (if_neg named))
    · exact .inr ⟨later, List.mem_cons_of_mem _ member, named, value⟩

theorem writeSlots_get_of_absent (field : ConfigField) {list : List (Slot F)}
    (absent : ∀ slot ∈ list, slot.field ≠ some field) (cfg : Config) :
    field.get (writeSlots hysteresis cfg list) = field.get cfg := by
  rcases writeSlots_get_cases hysteresis field list cfg with kept | ⟨slot, member, named, -⟩
  · exact kept
  · exact absurd named (absent slot member)

omit [FloatConv F] in
theorem slot_unique {field : ConfigField} {slot other : Slot F} (named : slot.field = some field)
    (also : other.field = some field) : ∀ {list : List (Slot F)}, slot ∈ list → other ∈ list →
      (list.filterMap Slot.field).Nodup → slot = other := by
  intro list
  induction list with
  | nil => exact fun member => absurd member List.not_mem_nil
  | cons first rest ih =>
    intro member listed distinct
    rcases List.mem_cons.mp member with rfl | later
    · rw [List.filterMap_cons_some named, List.nodup_cons] at distinct
      rcases List.mem_cons.mp listed with rfl | later
      · rfl
      · exact absurd (List.mem_filterMap.mpr ⟨other, later, also⟩) distinct.1
    · rcases List.mem_cons.mp listed with rfl | after
      · rw [List.filterMap_cons_some also, List.nodup_cons] at distinct
        exact absurd (List.mem_filterMap.mpr ⟨slot, later, named⟩) distinct.1
      · exact ih later after
          (distinct.sublist ((List.sublist_cons_self first rest).filterMap _))

theorem writeSlots_get_of_mem {field : ConfigField} {slot : Slot F}
    (named : slot.field = some field) : ∀ {list : List (Slot F)}, slot ∈ list →
      (list.filterMap Slot.field).Nodup → ∀ cfg : Config,
        field.get (writeSlots hysteresis cfg list) =
          slot.written field (slot.settled hysteresis) := by
  intro list
  induction list with
  | nil => exact fun member => absurd member List.not_mem_nil
  | cons first rest ih =>
    intro member distinct cfg
    rcases List.mem_cons.mp member with rfl | later
    · rw [List.filterMap_cons_some named, List.nodup_cons] at distinct
      have absent : ∀ other ∈ rest, other.field ≠ some field :=
        fun other listed same => distinct.1 (List.mem_filterMap.mpr ⟨other, listed, same⟩)
      refine (writeSlots_get_of_absent hysteresis field absent _).trans ?_
      rw [setParamByName_get]
      exact if_pos named
    · exact ih later (distinct.sublist ((List.sublist_cons_self first rest).filterMap _)) _

/-! ## Calls -/

namespace Tuning

/-- A field changes only if a parameter that writes it has a target far from
the normalised value in force; everything else stays. -/
def Honours (lib : CodecLibrary) (s : Tuning F) (call : ActionCall F) : Prop :=
  (s.applyAction lib call).broker.snap.cfg.syncPolicy = s.broker.snap.cfg.syncPolicy ∧
    ∀ field : ConfigField,
      field.get (s.applyAction lib call).broker.snap.cfg ≠ field.get s.broker.snap.cfg →
        ∃ slot ∈ s.opt.slots call.action, slot.field = some field ∧
          slot.far s.opt.hysteresis s.broker.snap.cfg field = true

def Agrees (s : Tuning F) (call : ActionCall F) : Prop :=
  ∀ slot ∈ s.opt.slots call.action, slot.Agrees s.opt.hysteresis s.broker.snap.cfg

/-- The call is rate-limited or has no target that moves the optimizer's value. -/
def Quiet (s : Tuning F) (call : ActionCall F) : Prop :=
  s.opt.rateLimited call.now = true ∨
    ∀ slot ∈ s.opt.slots call.action, slot.moves s.opt.hysteresis = false

/-- The call is quiet or meets a config that all of its slots agree with. -/
def Allowed (s : Tuning F) (call : ActionCall F) : Prop := s.Quiet call ∨ s.Agrees call

theorem quiet_iff (s : Tuning F) (call : ActionCall F) : s.Quiet call ↔
    s.opt.rateLimited call.now = true ∨ (s.opt.moved call.action).2 = false := by
  rw [Optimizer.moved_eq_slots, List.any_eq_false]
  simp only [Quiet, Bool.not_eq_true]

theorem applyAction_cfg (lib : CodecLibrary) (s : Tuning F) (call : ActionCall F) :
    (s.Quiet call ∧ (s.applyAction lib call).broker.snap.cfg = s.broker.snap.cfg) ∨
    (¬ s.Quiet call ∧ (s.applyAction lib call).broker.snap.cfg =
      if (s.opt.proposal s.broker.snap.cfg call.action).validate = .ok () then
        writeSlots s.opt.hysteresis s.broker.snap.cfg (s.opt.slots call.action)
      else s.broker.snap.cfg) := by
  rw [quiet_iff]
  refine Optimizer.applyAction_cases
    (motive := fun result => (_ ∧ result.2.snap.cfg = s.broker.snap.cfg) ∨
      (_ ∧ result.2.snap.cfg =
        if (s.opt.proposal s.broker.snap.cfg call.action).validate = .ok () then
          writeSlots s.opt.hysteresis s.broker.snap.cfg (s.opt.slots call.action)
        else s.broker.snap.cfg)) (fun limited => ?_) (fun _ still => ?_) (fun going moved => ?_)
  · exact .inl ⟨.inl limited, rfl⟩
  · exact .inl ⟨.inr still, rfl⟩
  · refine .inr ⟨by simp [going, moved], ?_⟩
    rw [Broker.applyConfig_cfg, Optimizer.proposal_eq_slots]

section
variable {lib : CodecLibrary} {s : Tuning F} {call : ActionCall F}

theorem honours_of_same
    (same : (s.applyAction lib call).broker.snap.cfg = s.broker.snap.cfg) : s.Honours lib call :=
  ⟨by rw [same], fun field changed => absurd (by rw [same]) changed⟩

theorem honours_of_agrees (agrees : s.Agrees call) (written :
      (s.applyAction lib call).broker.snap.cfg =
        writeSlots s.opt.hysteresis s.broker.snap.cfg (s.opt.slots call.action)) :
    s.Honours lib call := by
  refine ⟨by rw [written, writeSlots_syncPolicy], fun field changed => ?_⟩
  rw [written] at changed
  rcases writeSlots_get_cases s.opt.hysteresis field (s.opt.slots call.action)
    s.broker.snap.cfg with kept | ⟨slot, member, named, value⟩
  · exact absurd kept changed
  · rcases agrees slot member field named with far | inForce
    · exact ⟨slot, member, named, far⟩
    · have settled := (slot.settled_inForce_iff _ _ field).mpr inForce
      exact absurd (value.trans settled) changed

theorem honours_of_allowed (allowed : s.Allowed call) : s.Honours lib call := by
  rcases s.applyAction_cfg lib call with ⟨-, same⟩ | ⟨loud, cfg⟩
  · exact honours_of_same same
  · split at cfg
    · exact honours_of_agrees (allowed.resolve_left loud) cfg
    · exact honours_of_same cfg

theorem allowed_of_honours (distinct : DistinctFields s.opt.params)
    (valid : (s.opt.proposal s.broker.snap.cfg call.action).validate = .ok ())
    (honours : s.Honours lib call) : s.Allowed call := by
  rcases s.applyAction_cfg lib call with ⟨quiet, -⟩ | ⟨-, cfg⟩
  · exact .inl quiet
  refine .inr fun slot member field named => ?_
  rw [if_pos valid] at cfg
  have fields : ((s.opt.slots call.action).filterMap Slot.field).Nodup := by
    rw [Optimizer.slots, slots_fields _ _ _ s.opt.sized]
    exact distinct
  have value := writeSlots_get_of_mem s.opt.hysteresis named member fields s.broker.snap.cfg
  by_cases same : slot.InForce s.broker.snap.cfg field (slot.settled s.opt.hysteresis)
  · exact .inr ((slot.settled_inForce_iff _ _ field).mp same)
  · have changed : field.get (s.applyAction lib call).broker.snap.cfg ≠
        field.get s.broker.snap.cfg := by
      rw [cfg, value]
      exact same
    obtain ⟨other, listed, also, far⟩ := honours.2 field changed
    rw [slot_unique named also member listed fields]
    exact .inl far

end

/-- In every run in which each call is allowed, hysteresis is honoured by every
call; and for parameters with fields of their own, a call whose config the
broker accepts honours it only if it is allowed. -/
theorem hysteresis_honoured_where_allowed (lib : CodecLibrary) (start : Broker)
    (calibrated : List (TunableParam F)) (optCfg : OptimizerConfig F) :
    (∀ calls, Runs.Guarded (applyAction lib) Allowed (new start calibrated optCfg) calls →
      Runs.Guarded (applyAction lib) (Honours lib) (new start calibrated optCfg) calls) ∧
    ∀ (s : Tuning F) (call : ActionCall F), DistinctFields s.opt.params →
      (s.opt.proposal s.broker.snap.cfg call.action).validate = .ok () →
        (s.Honours lib call ↔ s.Allowed call) :=
  ⟨fun _ guarded => guarded.imp fun _ _ => honours_of_allowed,
    fun _ _ distinct valid => ⟨allowed_of_honours distinct valid, honours_of_allowed⟩⟩

/-- Only the segment size is to move; the target of every other parameter is one half. -/
def segmentCall : ActionCall Rat := ⟨1 :: List.replicate 9 0, 0⟩

/-- A broker with every parameter in the middle of its range, where the
optimizer takes it to be. -/
def midBroker : Broker :=
  Broker.new sampleLibrary
    (writeParams defaultConfig defaultTunableParams (List.replicate 10 (1 / 2 : Rat))) none

def midTuning : Tuning Rat := new midBroker defaultTunableParams ⟨32, 20, 1 / 10⟩

theorem hysteresis_honoured_in_step :
    Runs.Guarded (applyAction sampleLibrary) (Honours sampleLibrary) midTuning [segmentCall] ∧
    (midTuning.applyAction sampleLibrary segmentCall).broker.snap.cfg.segmentMaxBytes ≠
      midTuning.broker.snap.cfg.segmentMaxBytes := by
  have agrees : ∀ slot ∈ midTuning.opt.slots segmentCall.action, ∀ field ∈ slot.field.toList,
      slot.far midTuning.opt.hysteresis midTuning.broker.snap.cfg field = true ∨
      (slot.moves midTuning.opt.hysteresis = false ∧
        slot.written field slot.current = field.get midTuning.broker.snap.cfg) := by
    decide +kernel
  have allowed : midTuning.Allowed segmentCall := by
    refine .inr fun slot member field named => ?_
    rcases agrees slot member field (by simp [named]) with far | inForce
    · exact .inl far
    · exact .inr (.inl inForce)
  refine ⟨?_, by decide +kernel⟩
  exact (hysteresis_honoured_where_allowed sampleLibrary midBroker defaultTunableParams
    ⟨32, 20, 1 / 10⟩).1 [segmentCall] ⟨allowed, trivial⟩

/-- Delivery waits for 42 ms, in the middle of the range. -/
def lingerTuning : Tuning Rat :=
  new (Broker.new sampleLibrary { defaultConfig with lingerMs := 42 } none) defaultTunableParams
    ⟨32, 20, 1 / 10⟩

/-- The target of the linger time is within the hysteresis of the value in force,
and it changes with the segment size. -/
theorem hysteresis_ignored_for_linger :
    lingerTuning.broker.snap.cfg.validate = .ok () ∧
    within (1 / 10 : Rat) (actionTarget 0) (normalize 42 0 100) = true ∧
    lingerTuning.broker.snap.cfg.lingerMs = 42 ∧
    (lingerTuning.applyAction sampleLibrary segmentCall).broker.snap.cfg.lingerMs = 50 ∧
    ¬ lingerTuning.Honours sampleLibrary segmentCall := by
  have changed : (lingerTuning.applyAction sampleLibrary segmentCall).broker.snap.cfg.lingerMs =
      50 := by decide +kernel
  refine ⟨by decide, by decide +kernel, rfl, changed, fun honours => ?_⟩
  have far := honours.2 .lingerMs (changed.trans_ne (by decide))
  revert far
  decide +kernel

end Tuning

end NyaQueue
