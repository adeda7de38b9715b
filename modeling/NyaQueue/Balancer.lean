import NyaQueue.Broker
import NyaQueue.Lib.Lru

/-!
# Balancers

The four balancers of `pkg/balancer`: round robin, the better of two random
choices, sticky keys (PSA) and a DQN.  One balancer serves all topics, so the
number of partitions is an argument of each call.  Random draws, clocks, the order
in which a map is walked and the network's answers are inputs.  `none` in the
place of a partition stands for a panic, such as an index out of range.
-/

set_option autoImplicit false

namespace NyaQueue

/-- What the balancers use of `float64`. -/
class FloatArith (F : Type) where
  lt : F → F → Bool
  eq : F → F → Bool
  add : F → F → F
  sub : F → F → F
  mul : F → F → F
  div : F → F → F
  ofInt : Int → F
  /-- a constant of the source -/
  literal : Rat → F
  /-- `math.MaxFloat64` -/
  maxFloat : F

/-- The conversions out of `float64`, which the balancers use for a throughput
and the optimizer for config values. -/
class FloatConv (F : Type) extends FloatArith F where
  /-- `math.Abs` -/
  abs : F → F
  /-- `int(math.Round(x))` -/
  round : F → Int
  /-- `int64(x)` -/
  toInt64 : F → Int64

variable {F : Type} [FloatArith F]

open FloatArith

/-- The part of the broker's metrics that the balancers read. -/
structure Metrics (F : Type) where
  partitionLoads : List F
  queueDepth : List Int
  msgRate : F
  throughput : F

/-- The random draws of one call: for `rand.IntN(n)` the number taken modulo `n`,
and for `rand.Float64`. -/
structure Draws (F : Type) where
  first : Nat
  second : Nat
  third : Nat
  uniform : F

/-- `rand.IntN`, which panics unless `n` is positive. -/
def intN (draw n : Nat) : Option Nat := if n = 0 then none else some (draw % n)

def avgLoad (loads : List F) : F :=
  if loads = [] then literal 0
  else div (loads.foldl add (literal 0)) (ofInt loads.length)

/-! ## Round robin -/

structure RoundRobin (F : Type) where
  counter : UInt64
  loads : Option (List F)
  skipThreshold : F
  skipBudget : Int

namespace RoundRobin

/-- `NewRoundRobin()` -/
def new : RoundRobin F where
  counter := 0
  loads := none
  skipThreshold := literal (9 / 10)
  skipBudget := 2

/-- The loop that skips loaded partitions, with `tries` left. -/
def skipLoaded (loads : List F) (threshold : F) (numPartitions : Nat) : Nat → Nat → Nat
  | 0, idx => idx
  | tries + 1, idx =>
      match loads[idx]? with
      | none => idx
      | some load =>
          if lt threshold load then
            skipLoaded loads threshold numPartitions tries ((idx + 1) % numPartitions)
          else idx

def selectPartition (rr : RoundRobin F) (numPartitions : Nat) : Option Nat × RoundRobin F :=
  let n := rr.counter + 1
  let rr := { rr with counter := n }
  if UInt64.ofNat numPartitions = 0 then (none, rr)
  else
    let idx := (n % UInt64.ofNat numPartitions).toNat
    if rr.skipBudget ≤ 0 then (some idx, rr)
    else
      match rr.loads with
      | none => (some idx, rr)
      | some loads =>
          (some (skipLoaded loads rr.skipThreshold numPartitions rr.skipBudget.toNat idx), rr)

def onMetrics (rr : RoundRobin F) (m : Metrics F) : RoundRobin F :=
  if m.partitionLoads = [] then rr else { rr with loads := some m.partitionLoads }

end RoundRobin

/-! ## Publishes in flight -/

/-- The counters for `n` partitions; an array that is too short is replaced. -/
def ensureInflight (inflight : Option (List Int64)) (n : Nat) : List Int64 :=
  match inflight with
  | none => List.replicate n 0
  | some counters => if n ≤ counters.length then counters else List.replicate n 0

/-- `(*inf)[idx].Add(delta)` -/
def addInflight (counters : List Int64) (idx : Nat) (delta : Int64) : Option (List Int64) :=
  match counters[idx]? with
  | none => none
  | some count => some (counters.set idx (count + delta))

/-- `OnPublishComplete` -/
def publishComplete (inflight : Option (List Int64)) (partition : Nat) : Option (List Int64) :=
  match inflight with
  | none => none
  | some counters => some ((addInflight counters partition (-1)).getD counters)

/-! ## Two choices -/

structure PowerOfTwoChoices (F : Type) where
  loadEWMA : Option (List F)
  depthNorm : Option (List F)
  inflight : Option (List Int64)
  alpha : F
  loadWeight : F
  depthWeight : F
  inflightWeight : F

namespace PowerOfTwoChoices

/-- A term of the score, for an array that has the partition. -/
def term (weight : F) (values : Option (List F)) (idx : Nat) (s : F) : F :=
  match values with
  | none => s
  | some values =>
      match values[idx]? with
      | none => s
      | some value => add s (mul weight value)

def score (p : PowerOfTwoChoices F) (idx : Nat) (counters : List Int64) : F :=
  let s := term p.loadWeight p.loadEWMA idx (literal 0)
  let s := term p.depthWeight p.depthNorm idx s
  term p.inflightWeight (some (counters.map fun count => ofInt count.toInt)) idx s

/-- The chosen partition gets one more publish in flight. -/
def take (p : PowerOfTwoChoices F) (counters : List Int64) (chosen : Nat) :
    Option Nat × PowerOfTwoChoices F :=
  match addInflight counters chosen 1 with
  | none => (none, { p with inflight := some counters })
  | some counters => (some chosen, { p with inflight := some counters })

def selectPartition (p : PowerOfTwoChoices F) (numPartitions : Nat) (draws : Draws F) :
    Option Nat × PowerOfTwoChoices F :=
  if numPartitions ≤ 1 then p.take (ensureInflight p.inflight 1) 0
  else
    let counters := ensureInflight p.inflight numPartitions
    let a := draws.first % numPartitions
    let b := draws.second % (numPartitions - 1)
    let b := if a ≤ b then b + 1 else b
    let sa := p.score a counters
    let sb := p.score b counters
    let chosen :=
      if lt sa sb then a
      else if lt sb sa then b
      else if draws.third % 2 = 0 then a
      else b
    p.take counters chosen

def onPublishComplete (p : PowerOfTwoChoices F) (partition : Nat) : PowerOfTwoChoices F :=
  { p with inflight := publishComplete p.inflight partition }

def updateLoadEWMA (p : PowerOfTwoChoices F) (sample : List F) : PowerOfTwoChoices F :=
  let smooth := fun old => List.zipWith (fun new old =>
    add (mul p.alpha new) (mul (sub (literal 1) p.alpha) old)) sample old
  { p with
    loadEWMA := some (match p.loadEWMA with
      | none => sample
      | some old => if old.length = sample.length then smooth old else sample) }

def updateDepthNorm (p : PowerOfTwoChoices F) (depths : List Int) : PowerOfTwoChoices F :=
  let maxD := depths.foldl max 0
  { p with
    depthNorm := some (if 0 < maxD then
        depths.map fun d => mul (ofInt d) (div (literal 1) (ofInt maxD))
      else depths.map fun _ => literal 0) }

def onMetrics (p : PowerOfTwoChoices F) (m : Metrics F) : PowerOfTwoChoices F :=
  let p := if m.partitionLoads = [] then p else p.updateLoadEWMA m.partitionLoads
  if m.queueDepth = [] then p else p.updateDepthNorm m.queueDepth

end PowerOfTwoChoices

/-! ## DQN -/

def fallbackEnterTicks : Nat := 3
def fallbackExitTicks : Nat := 10

structure DQNBalancer (F : Type) where
  epsilon : F
  fallbackRR : RoundRobin F
  fallbackRatio : F
  loadThreshold : F
  baseThroughput : Int64
  fallbackActive : Bool
  epsilonSuppressed : Bool
  adaptiveEpsilon : F
  msgRate : F
  inflight : Option (List Int64)
  cachedQValues : Option (List F)
  consecutiveFallbackTicks : Nat
  consecutiveRecoveryTicks : Nat

/-- The loop of `argmax`: position `i` comes next. -/
def argmaxFrom (values : List F) : List F → Nat → Nat → Nat
  | [], _, best => best
  | value :: rest, i, best =>
      match values[best]? with
      | none => best
      | some top => argmaxFrom values rest (i + 1) (if lt top value then i else best)

def argmax (values : List F) : Nat := argmaxFrom values values.tail 1 0

namespace DQNBalancer

/-- `NewDQNBalancer` with the settings its options leave. -/
def new (epsilon fallbackRatio loadThreshold : F) : DQNBalancer F where
  epsilon := epsilon
  fallbackRR := .new
  fallbackRatio := fallbackRatio
  loadThreshold := loadThreshold
  baseThroughput := 0
  fallbackActive := false
  epsilonSuppressed := false
  adaptiveEpsilon := epsilon
  msgRate := literal 0
  inflight := none
  cachedQValues := none
  consecutiveFallbackTicks := 0
  consecutiveRecoveryTicks := 0

/-- `(*inf)[idx].Add(1)` and the return. -/
def take (d : DQNBalancer F) (counters : List Int64) : Option Nat → Option Nat × DQNBalancer F
  | none => (none, { d with inflight := some counters })
  | some idx =>
      match addInflight counters idx 1 with
      | none => (none, { d with inflight := some counters })
      | some counters => (some idx, { d with inflight := some counters })

def selectFallback (d : DQNBalancer F) (counters : List Int64) (numPartitions : Nat) :
    Option Nat × DQNBalancer F :=
  let choice := d.fallbackRR.selectPartition numPartitions
  take { d with fallbackRR := choice.2 } counters choice.1

def selectPartition (d : DQNBalancer F) (numPartitions : Nat) (draws : Draws F) :
    Option Nat × DQNBalancer F :=
  let counters := ensureInflight d.inflight numPartitions
  if d.fallbackActive then d.selectFallback counters numPartitions
  else if d.epsilonSuppressed = false ∧ lt draws.uniform d.adaptiveEpsilon then
    d.take counters (intN draws.first numPartitions)
  else
    match d.cachedQValues with
    | none => d.selectFallback counters numPartitions
    | some cached =>
        if numPartitions ≤ cached.length then
          d.take counters (some (argmax (cached.take numPartitions)))
        else d.selectFallback counters numPartitions

def onPublishComplete (d : DQNBalancer F) (partition : Nat) : DQNBalancer F :=
  { d with inflight := publishComplete d.inflight partition }

/-- Whether the metrics speak for the fallback. -/
def shouldFallback (d : DQNBalancer F) (m : Metrics F) : Bool :=
  let baseTP := ofInt d.baseThroughput.toInt
  (lt (literal 0) baseTP && lt m.throughput (mul d.fallbackRatio baseTP)) ||
    (lt (literal 0) d.loadThreshold && !m.partitionLoads.isEmpty &&
      lt d.loadThreshold (avgLoad m.partitionLoads))

def onMetrics (d : DQNBalancer F) (m : Metrics F) : DQNBalancer F :=
  let d := { d with msgRate := m.msgRate }
  if d.shouldFallback m then
    let ticks := d.consecutiveFallbackTicks + 1
    { d with
      consecutiveRecoveryTicks := 0
      consecutiveFallbackTicks := ticks
      epsilonSuppressed := true
      fallbackActive := d.fallbackActive || decide (fallbackEnterTicks ≤ ticks) }
  else
    let ticks := d.consecutiveRecoveryTicks + 1
    let recovered := decide (fallbackExitTicks ≤ ticks)
    { d with
      consecutiveFallbackTicks := 0
      consecutiveRecoveryTicks := ticks
      fallbackActive := d.fallbackActive && !recovered
      epsilonSuppressed := d.epsilonSuppressed && !recovered }

def setBaseThroughput {F : Type} [FloatConv F] (d : DQNBalancer F) (t : F) : DQNBalancer F :=
  { d with baseThroughput := FloatConv.toInt64 t }

/-- A tick of the policy loop, for which the network has answered `qValues`. -/
def policyTick (d : DQNBalancer F) (qValues : List F) : DQNBalancer F :=
  let normal := literal 10000
  { d with
    adaptiveEpsilon := if lt normal d.msgRate then mul d.epsilon (div normal d.msgRate)
      else d.epsilon
    cachedQValues := some qValues }

end DQNBalancer

/-! ## Sticky keys -/

def defaultPSAMaxBindings : Nat := 100000

/-- Half a second, in nanoseconds. -/
def psaGracePeriod : Int := 500000000

/-- The order in which a map is walked. -/
structure MapOrder (α : Type) where
  arrange : List α → List α
  perm : ∀ entries, (arrange entries).Perm entries

structure PsaShard where
  keys : List Bytes
  lastBindTime : Int

structure PSA (F : Type) where
  bindings : Lru Bytes Nat
  shards : List PsaShard
  free : List Nat
  loads : Option (List F)
  numPartitions : Nat

/-- What one operation of a PSA meets. -/
structure PsaEnv where
  now : Int
  draw : Nat
  first : MapOrder Nat
  second : MapOrder Nat
  keys : MapOrder Bytes

/-- FNV-1a -/
def hashKey (key : Bytes) : UInt64 :=
  key.foldl (fun h byte => (h ^^^ byte.toUInt64) * 1099511628211) 14695981039346656037

namespace PSA

def new (numPartitions : Nat) : PSA F where
  bindings := Lru.empty defaultPSAMaxBindings
  shards := List.replicate numPartitions { keys := [], lastBindTime := 0 }
  free := List.range numPartitions
  loads := none
  numPartitions := numPartitions

def storeFree (p : PSA F) (id : Nat) : PSA F :=
  { p with free := if id ∈ p.free then p.free else id :: p.free }

def setShard (p : PSA F) (id : Nat) (shard : PsaShard) : PSA F :=
  { p with shards := p.shards.set id shard }

def removeFromReverseIndex (p : PSA F) (key : Bytes) (partID : Nat) : PSA F :=
  match p.shards[partID]? with
  | none => p
  | some shard =>
      let keys := shard.keys.filter fun k => k ≠ key
      let p := p.setShard partID { shard with keys := keys }
      if keys = [] then p.storeFree partID else p

/-- The callback for an entry that has left the cache. -/
def onEvict (p : PSA F) : Option (Bytes × Nat) → PSA F
  | none => p
  | some (key, partID) => p.removeFromReverseIndex key partID

/-- The binding is added before the shard is looked up; the answer says whether
there is one. -/
def bind (p : PSA F) (key : Bytes) (part : Nat) (now : Int) : Bool × PSA F :=
  let added := p.bindings.add key part
  let p := onEvict { p with bindings := added.2 } added.1
  match p.shards[part]? with
  | none => (false, p)
  | some shard =>
      let keys := if key ∈ shard.keys then shard.keys else key :: shard.keys
      (true, p.setShard part { keys := keys, lastBindTime := now })

/-- The least loaded of the partitions walked. -/
def leastLoaded (loads : Option (List F)) (ids : List Nat) : Option Nat :=
  (ids.foldl (fun best id =>
    let load := match loads with
      | none => maxFloat
      | some loads => loads.getD id maxFloat
    if lt load best.2 then (some id, load) else best) (none, maxFloat)).1

/-- The two walks of `claimFreePartition`, the first without the partitions that
the draw skips. -/
def bestFree (p : PSA F) (skip : Nat) (env : PsaEnv) : Option Nat :=
  match leastLoaded p.loads ((env.first.arrange p.free).drop skip) with
  | some id => some id
  | none => leastLoaded p.loads (env.second.arrange p.free)

/-- `claimFreePartition`, after the draw. -/
def claimFreePartition (p : PSA F) (skip : Nat) (env : PsaEnv) : Option Nat × PSA F :=
  match p.bestFree skip env with
  | none => (none, p)
  | some id =>
      if id ∈ p.free then (some id, { p with free := p.free.filter fun other => other ≠ id })
      else (none, p)

def bindTo (p : PSA F) (key : Bytes) (part : Nat) (now : Int) : Option Nat × PSA F :=
  let bound := p.bind key part now
  (if bound.1 then some part else none, bound.2)

def selectPartition (p : PSA F) (key : Bytes) (numPartitions : Nat) (env : PsaEnv) :
    Option Nat × PSA F :=
  match p.bindings.get key with
  | (some part, bindings) => (some part, { p with bindings := bindings })
  | (none, _) =>
      match intN env.draw p.numPartitions with
      | none => (none, p)
      | some skip =>
          match p.claimFreePartition skip env with
          | (some part, p) => p.bindTo key part env.now
          | (none, p) =>
              if UInt64.ofNat numPartitions = 0 then (none, p)
              else p.bindTo key (hashKey key % UInt64.ofNat numPartitions).toNat env.now

/-- A binding is removed if it still leads to `id`. -/
def unbind (id : Nat) (p : PSA F) (key : Bytes) : PSA F :=
  if p.bindings.peek key = some id then
    let removed := p.bindings.remove key
    onEvict { p with bindings := removed.2 } removed.1
  else p

def releasePartition (p : PSA F) (id : Nat) (env : PsaEnv) : PSA F :=
  match p.shards[id]? with
  | none => p
  | some shard =>
      if 0 < shard.lastBindTime ∧ env.now - shard.lastBindTime < psaGracePeriod then p
      else if shard.keys = [] then p.storeFree id
      else
        let p := p.setShard id { shard with keys := [] }
        ((env.keys.arrange shard.keys).foldl (unbind id) p).storeFree id

/-- An empty key counts as no key. -/
def stealOneBinding (p : PSA F) (src dst : Nat) (env : PsaEnv) : PSA F :=
  if p.shards.length ≤ dst then p
  else
    match p.shards[src]? with
    | none => p
    | some shard =>
        let victim := (env.keys.arrange shard.keys).headD []
        if victim = [] then p
        else
          let p := p.setShard src { shard with keys := shard.keys.filter fun k => k ≠ victim }
          ((unbind src p victim).bind victim dst env.now).2

/-- What `OnMetrics` meets when it comes to a partition in each of its loops. -/
structure MetricsEnv where
  drained : Nat → PsaEnv
  overloaded : Nat → PsaEnv
  idle : Nat → PsaEnv

/-- The partition that an idle one takes a binding from: the first that is loaded
far above the average. -/
def donor (m : Metrics F) (avg : F) (i : Nat) : Option Nat :=
  (m.partitionLoads.zipIdx.find? fun entry => entry.2 ≠ i ∧ eq avg (literal 0) = false ∧
    lt (mul (literal (3 / 2)) avg) entry.1).map fun entry => entry.2

def onMetrics (p : PSA F) (m : Metrics F) (env : MetricsEnv) : PSA F :=
  let p := { p with loads := some m.partitionLoads }
  let p := m.queueDepth.zipIdx.foldl (fun p entry =>
    if entry.1 = 0 then p.releasePartition entry.2 (env.drained entry.2) else p) p
  if 1 < m.partitionLoads.length then
    let avg := avgLoad m.partitionLoads
    let p := m.partitionLoads.zipIdx.foldl (fun p entry =>
      if lt (literal 0) avg ∧ lt (mul (literal 2) avg) entry.1 then
        p.releasePartition entry.2 (env.overloaded entry.2)
      else p) p
    m.partitionLoads.zipIdx.foldl (fun p entry =>
      if lt (literal 0) entry.1 then p
      else if (m.queueDepth.getD entry.2 0) > 0 then p
      else
        match donor m avg entry.2 with
        | none => p
        | some j => p.stealOneBinding j entry.2 (env.idle entry.2)) p
  else p

end PSA

end NyaQueue
