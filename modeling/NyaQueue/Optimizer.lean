import NyaQueue.Balancer

/-!
# The config optimizer

Model of `pkg/optimizer/optimizer.go` and `params.go`, with `SetParamByName` of
`pkg/broker/config.go`.  The optimizer keeps a value between zero and one for
each active parameter, moves it when an action of the policy network is far
enough away, and writes all of its values into the broker's config.  The
answers of the network, the metrics and the clock are inputs; what the network
learns from does not reach the config and is left out.
-/

set_option autoImplicit false

namespace NyaQueue

/-! ## Config fields by name -/

/-- The fields that `SetParamByName` can write. -/
inductive ConfigField where
  | segmentMaxBytes
  | segmentMaxCount
  | retentionMaxBytes
  | retentionMaxAge
  | flushIntervalMs
  | compressionType
  | maxConnections
  | recvBufferBytes
  | sendBufferBytes
  | maxMessageBytes
  | readTimeoutMs
  | writeTimeoutMs
  | numNetworkGoroutines
  | numIOGoroutines
  | maxQueuedRequests
  | batchSize
  | batchMemoryBytes
  | lingerMs
  | fetchMinBytes
  | fetchMaxWaitMs
  | maxFetchBytes
  | consumerSessionTimeoutMs
  deriving DecidableEq, Repr

namespace ConfigField

def get : ConfigField → Config → Int
  | segmentMaxBytes => Config.segmentMaxBytes
  | segmentMaxCount => Config.segmentMaxCount
  | retentionMaxBytes => Config.retentionMaxBytes
  | retentionMaxAge => Config.retentionMaxAge
  | flushIntervalMs => Config.flushIntervalMs
  | compressionType => Config.compressionType
  | maxConnections => Config.maxConnections
  | recvBufferBytes => Config.recvBufferBytes
  | sendBufferBytes => Config.sendBufferBytes
  | maxMessageBytes => Config.maxMessageBytes
  | readTimeoutMs => Config.readTimeoutMs
  | writeTimeoutMs => Config.writeTimeoutMs
  | numNetworkGoroutines => Config.numNetworkGoroutines
  | numIOGoroutines => Config.numIOGoroutines
  | maxQueuedRequests => Config.maxQueuedRequests
  | batchSize => Config.batchSize
  | batchMemoryBytes => Config.batchMemoryBytes
  | lingerMs => Config.lingerMs
  | fetchMinBytes => Config.fetchMinBytes
  | fetchMaxWaitMs => Config.fetchMaxWaitMs
  | maxFetchBytes => Config.maxFetchBytes
  | consumerSessionTimeoutMs => Config.consumerSessionTimeoutMs

def set (field : ConfigField) (v : Int) (cfg : Config) : Config :=
  match field with
  | segmentMaxBytes => { cfg with segmentMaxBytes := v }
  | segmentMaxCount => { cfg with segmentMaxCount := v }
  | retentionMaxBytes => { cfg with retentionMaxBytes := v }
  | retentionMaxAge => { cfg with retentionMaxAge := v }
  | flushIntervalMs => { cfg with flushIntervalMs := v }
  | compressionType => { cfg with compressionType := v }
  | maxConnections => { cfg with maxConnections := v }
  | recvBufferBytes => { cfg with recvBufferBytes := v }
  | sendBufferBytes => { cfg with sendBufferBytes := v }
  | maxMessageBytes => { cfg with maxMessageBytes := v }
  | readTimeoutMs => { cfg with readTimeoutMs := v }
  | writeTimeoutMs => { cfg with writeTimeoutMs := v }
  | numNetworkGoroutines => { cfg with numNetworkGoroutines := v }
  | numIOGoroutines => { cfg with numIOGoroutines := v }
  | maxQueuedRequests => { cfg with maxQueuedRequests := v }
  | batchSize => { cfg with batchSize := v }
  | batchMemoryBytes => { cfg with batchMemoryBytes := v }
  | lingerMs => { cfg with lingerMs := v }
  | fetchMinBytes => { cfg with fetchMinBytes := v }
  | fetchMaxWaitMs => { cfg with fetchMaxWaitMs := v }
  | maxFetchBytes => { cfg with maxFetchBytes := v }
  | consumerSessionTimeoutMs => { cfg with consumerSessionTimeoutMs := v }

@[simp] theorem get_set_self (field : ConfigField) (v : Int) (cfg : Config) :
    field.get (field.set v cfg) = v := by
  cases field <;> rfl

theorem get_set_ne {field other : ConfigField} (different : other ≠ field) (v : Int)
    (cfg : Config) : other.get (field.set v cfg) = other.get cfg := by
  cases field <;> cases other <;> first | rfl | exact absurd rfl different

@[simp] theorem set_syncPolicy (field : ConfigField) (v : Int) (cfg : Config) :
    (field.set v cfg).syncPolicy = cfg.syncPolicy := by
  cases field <;> rfl

end ConfigField

/-- The names in the switch of `SetParamByName`. -/
def paramFields : List (String × ConfigField) := [
  ("SegmentMaxBytes", .segmentMaxBytes),
  ("SegmentMaxCount", .segmentMaxCount),
  ("RetentionMaxBytes", .retentionMaxBytes),
  ("RetentionMaxAge", .retentionMaxAge),
  ("FlushIntervalMs", .flushIntervalMs),
  ("CompressionType", .compressionType),
  ("MaxConnections", .maxConnections),
  ("RecvBufferBytes", .recvBufferBytes),
  ("SendBufferBytes", .sendBufferBytes),
  ("MaxMessageBytes", .maxMessageBytes),
  ("ReadTimeoutMs", .readTimeoutMs),
  ("WriteTimeoutMs", .writeTimeoutMs),
  ("NumNetworkGoroutines", .numNetworkGoroutines),
  ("NumIOGoroutines", .numIOGoroutines),
  ("MaxQueuedRequests", .maxQueuedRequests),
  ("BatchSize", .batchSize),
  ("BatchMemoryBytes", .batchMemoryBytes),
  ("LingerMs", .lingerMs),
  ("FetchMinBytes", .fetchMinBytes),
  ("FetchMaxWaitMs", .fetchMaxWaitMs),
  ("MaxFetchBytes", .maxFetchBytes),
  ("ConsumerSessionTimeoutMs", .consumerSessionTimeoutMs)]

def paramField (name : String) : Option ConfigField := paramFields.lookup name

open FloatArith FloatConv

variable {F : Type}

section
variable [FloatConv F]

/-- Most fields are rounded; the two 64-bit ones are converted directly, which
cuts the fraction off. -/
def ConfigField.convert (field : ConfigField) (val : F) : Int :=
  if field = .retentionMaxBytes ∨ field = .retentionMaxAge then (toInt64 val).toInt
  else round val

def setParamByName (cfg : Config) (name : String) (val : F) : Config :=
  match paramField name with
  | none => cfg
  | some field => field.set (field.convert val) cfg

end

/-! ## Tunable parameters -/

structure TunableParam (F : Type) where
  name : String
  min : F
  max : F
  weight : F

section
variable [FloatConv F]

def defaultTunableParams : List (TunableParam F) := [
  ⟨"SegmentMaxBytes", literal (2 ^ 20), literal (64 * 2 ^ 20), literal 1⟩,
  ⟨"SegmentMaxCount", literal 10, literal 500, literal 1⟩,
  ⟨"FlushIntervalMs", literal 100, literal 10000, literal 1⟩,
  ⟨"BatchSize", literal 1, literal 1000, literal 1⟩,
  ⟨"BatchMemoryBytes", literal 1024, literal (2 ^ 20), literal (9 / 10)⟩,
  ⟨"LingerMs", literal 0, literal 100, literal 1⟩,
  ⟨"NumIOGoroutines", literal 1, literal 32, literal 1⟩,
  ⟨"NumNetworkGoroutines", literal 1, literal 32, literal 1⟩,
  ⟨"CompressionType", literal 0, literal 3, literal (3 / 10)⟩,
  ⟨"MaxMessageBytes", literal 1024, literal (10 * 2 ^ 20), literal (7 / 10)⟩]

def activeParams (all : List (TunableParam F)) : List (TunableParam F) :=
  all.filter fun p => lt (literal 0) p.weight

def normalize (val min max : F) : F :=
  if lt max min || eq max min then literal 0
  else
    let n := div (sub val min) (sub max min)
    if lt n (literal 0) then literal 0
    else if lt (literal 1) n then literal 1
    else n

def denormalize (norm min max : F) : F := add min (mul norm (sub max min))

end

/-! ## The optimizer -/

def defaultMinApplyInterval : Int := 2000000000

/-- `DefaultEmergencyRollbackN` -/
def emergencyRollbackN : Nat := 2

/-- The settings of `OptimizerConfig` that reach the config; zero stands for
the default. -/
structure OptimizerConfig (F : Type) where
  batchSize : Int
  warmupTicks : Int
  hysteresis : F

/-- The part of the broker's metrics that decides what a step does. -/
structure DeliveryMetrics (F : Type) where
  msgRate : F
  consumeRate : F
  deliveryRatio : F

/-- There is one value for each active parameter. -/
structure Optimizer (F : Type) where
  params : List (TunableParam F)
  warmup : Int
  ticks : Int
  hysteresis : F
  currentVals : List F
  /-- `none` for the zero time -/
  lastApplyTime : Option Time
  minApplyInterval : Int
  startConfig : Config
  lowDeliveryTicksInARow : Nat
  rolledBack : Bool
  sized : currentVals.length = params.length

section
variable [FloatConv F]

/-- The target of an action: from [-1, 1] to [0, 1], clamped. -/
def actionTarget (a : F) : F :=
  let newNorm := div (add a (literal 1)) (literal 2)
  let newNorm := if lt newNorm (literal 0) then literal 0 else newNorm
  if lt (literal 1) newNorm then literal 1 else newNorm

/-- `a` and `b` are less than the hysteresis apart. -/
def within (hysteresis a b : F) : Bool := lt (abs (sub a b)) hysteresis

/-- The loop over the action: the values after it, and whether one has moved. -/
def moveVals (hysteresis : F) : List F → List F → List F × Bool
  | [], _ => ([], false)
  | vals, [] => (vals, false)
  | v :: vals, a :: action =>
      let later := moveVals hysteresis vals action
      if within hysteresis (actionTarget a) v then (v :: later.1, later.2)
      else (actionTarget a :: later.1, true)

theorem moveVals_length (hysteresis : F) (vals : List F) :
    ∀ action : List F, (moveVals hysteresis vals action).1.length = vals.length := by
  induction vals with
  | nil => exact fun action => rfl
  | cons v vals ih =>
    intro action
    cases action with
    | nil => rfl
    | cons a action =>
      rw [moveVals]
      split <;> simp [ih]

/-- The loop that writes every value into the config. -/
def writeParams (cfg : Config) : List (TunableParam F) → List F → Config
  | p :: params, v :: vals =>
      writeParams (setParamByName cfg p.name (denormalize v p.min p.max)) params vals
  | _, _ => cfg

namespace Optimizer

/-- `NewOptimizer` with the calibrated parameters. -/
def new (b : Broker) (calibrated : List (TunableParam F)) (optCfg : OptimizerConfig F) :
    Optimizer F where
  params := activeParams calibrated
  warmup :=
    let batchSize := if optCfg.batchSize = 0 then 32 else optCfg.batchSize
    if optCfg.warmupTicks = 0 then batchSize * 2 else optCfg.warmupTicks
  ticks := 0
  hysteresis := if eq optCfg.hysteresis (literal 0) then literal (1 / 10) else optCfg.hysteresis
  currentVals := List.replicate (activeParams calibrated).length (literal (1 / 2))
  lastApplyTime := none
  minApplyInterval := defaultMinApplyInterval
  startConfig := b.snap.cfg
  lowDeliveryTicksInARow := 0
  rolledBack := false
  sized := List.length_replicate

/-- The last apply is too recent for another one. -/
def rateLimited (o : Optimizer F) (now : Time) : Bool :=
  match o.lastApplyTime with
  | none => false
  | some last => decide (timeSub now last < o.minApplyInterval)

def moved (o : Optimizer F) (action : List F) : List F × Bool :=
  moveVals o.hysteresis o.currentVals action

def withVals (o : Optimizer F) (action : List F) : Optimizer F :=
  { o with
    currentVals := (o.moved action).1
    sized := (moveVals_length o.hysteresis o.currentVals action).trans o.sized }

/-- The config that `applyAction` builds from the one in force. -/
def proposal (o : Optimizer F) (cfg : Config) (action : List F) : Config :=
  writeParams cfg o.params (o.moved action).1

def applyAction (lib : CodecLibrary) (o : Optimizer F) (b : Broker) (action : List F) (now : Time) :
    Optimizer F × Broker :=
  if o.rateLimited now then (o, b)
  else if (o.moved action).2 then
    ({ o.withVals action with lastApplyTime := some now },
      (b.applyConfig lib (o.proposal b.snap.cfg action)).2)
  else (o.withVals action, b)

def lowDelivery (m : DeliveryMetrics F) : Bool :=
  lt m.deliveryRatio (literal (1 / 2)) && lt (literal 0) m.msgRate

def checkEmergencyRollback (lib : CodecLibrary) (o : Optimizer F) (b : Broker)
    (m : DeliveryMetrics F) : Optimizer F × Broker :=
  if o.rolledBack then (o, b)
  else
    let inARow := if lowDelivery m then o.lowDeliveryTicksInARow + 1 else 0
    let o := { o with lowDeliveryTicksInARow := inARow }
    if emergencyRollbackN ≤ inARow then
      ({ o with rolledBack := true }, (b.applyConfig lib o.startConfig).2)
    else (o, b)

/-- Consumers keep up well enough to try another config. -/
def safe (m : DeliveryMetrics F) : Bool :=
  !(lt (literal 0) m.msgRate && lt (div m.consumeRate m.msgRate) (literal (7 / 10)))

def step (lib : CodecLibrary) (o : Optimizer F) (b : Broker) (m : DeliveryMetrics F)
    (action : List F) (now : Time) : Optimizer F × Broker :=
  let checked := { o with ticks := o.ticks + 1 }.checkEmergencyRollback lib b m
  if checked.1.warmup < checked.1.ticks ∧ checked.1.rolledBack = false ∧ safe m then
    checked.1.applyAction lib checked.2 action now
  else checked

/-! ## What a call can do -/

section
variable {lib : CodecLibrary} {o : Optimizer F} {b : Broker} {action : List F} {now : Time}

theorem applyAction_cases {motive : Optimizer F × Broker → Prop}
    (limited : o.rateLimited now = true → motive (o, b))
    (quiet : o.rateLimited now = false → (o.moved action).2 = false →
      motive (o.withVals action, b))
    (applied : o.rateLimited now = false → (o.moved action).2 = true →
      motive ({ o.withVals action with lastApplyTime := some now },
        (b.applyConfig lib (o.proposal b.snap.cfg action)).2)) :
    motive (o.applyAction lib b action now) := by
  unfold applyAction
  split_ifs with early moved
  · exact limited early
  · exact applied (Bool.eq_false_of_not_eq_true early) moved
  · exact quiet (Bool.eq_false_of_not_eq_true early) (Bool.eq_false_of_not_eq_true moved)

/-- The ticks in a row with low delivery, one tick later. -/
def nextInARow (o : Optimizer F) (m : DeliveryMetrics F) : Nat :=
  if lowDelivery m then o.lowDeliveryTicksInARow + 1 else 0

/-- The optimizer after the check of a tick that does not roll back. -/
def counted (o : Optimizer F) (m : DeliveryMetrics F) : Optimizer F :=
  { o with ticks := o.ticks + 1, lowDeliveryTicksInARow := o.nextInARow m }

theorem step_cases {motive : Optimizer F × Broker → Prop} {m : DeliveryMetrics F}
    (finished : o.rolledBack = true → motive ({ o with ticks := o.ticks + 1 }, b))
    (rollback : o.rolledBack = false → emergencyRollbackN ≤ o.nextInARow m →
      motive ({ o.counted m with rolledBack := true }, (b.applyConfig lib o.startConfig).2))
    (held : o.rolledBack = false → o.nextInARow m < emergencyRollbackN → motive (o.counted m, b))
    (tuned : o.rolledBack = false → o.nextInARow m < emergencyRollbackN →
      motive ((o.counted m).applyAction lib b action now)) :
    motive (o.step lib b m action now) := by
  cases rolled : o.rolledBack with
  | true =>
    have checked : { o with ticks := o.ticks + 1 }.checkEmergencyRollback lib b m =
        ({ o with ticks := o.ticks + 1 }, b) := if_pos rolled
    simp only [step, checked]
    rw [if_neg (by simp [rolled])]
    exact finished rolled
  | false =>
    by_cases low : emergencyRollbackN ≤ o.nextInARow m
    · have checked : { o with ticks := o.ticks + 1 }.checkEmergencyRollback lib b m =
          ({ o.counted m with rolledBack := true }, (b.applyConfig lib o.startConfig).2) :=
        (if_neg (by simp [rolled])).trans (if_pos low)
      simp only [step, checked]
      rw [if_neg (by simp)]
      exact rollback rolled low
    · have checked : { o with ticks := o.ticks + 1 }.checkEmergencyRollback lib b m =
          (o.counted m, b) :=
        (if_neg (by simp [rolled])).trans (if_neg low)
      simp only [step, checked]
      split
      · exact tuned rolled (Nat.lt_of_not_le low)
      · exact held rolled (Nat.lt_of_not_le low)

end

end Optimizer

/-- An optimizer and the broker it tunes. -/
structure Tuning (F : Type) where
  opt : Optimizer F
  broker : Broker

/-- What one `applyAction` is given. -/
structure ActionCall (F : Type) where
  action : List F
  now : Time

namespace Tuning

def new (b : Broker) (calibrated : List (TunableParam F)) (optCfg : OptimizerConfig F) :
    Tuning F :=
  ⟨Optimizer.new b calibrated optCfg, b⟩

def applyAction (lib : CodecLibrary) (s : Tuning F) (call : ActionCall F) : Tuning F :=
  let applied := s.opt.applyAction lib s.broker call.action call.now
  ⟨applied.1, applied.2⟩

end Tuning

end

theorem Broker.applyConfig_cfg (lib : CodecLibrary) (b : Broker) (cfg : Config) :
    (b.applyConfig lib cfg).2.snap.cfg = if cfg.validate = .ok () then cfg else b.snap.cfg := by
  unfold Broker.applyConfig
  cases valid : cfg.validate with
  | error errors => simp
  | ok _ =>
    simp only [if_true]
    split
    · assumption
    · rfl

end NyaQueue
