import NyaQueue.Balancer
import Mathlib.Algebra.Order.Field.Rat

/-!
# The metrics collector

Model of the counters of `pkg/broker/metrics.go`.  Produces and consumes are
counted by partition id, in arrays that grow on demand; `Collect` compares them
with the values that the previous `Collect` saved.  `Collect` takes the lock for
each partition and once more to save, so its steps are definitions of their own.
Quotients are exact.  Message sizes, latencies, the history of the deviation and
the Prometheus metrics are left out.
-/

set_option autoImplicit false

namespace NyaQueue

@[ext] structure PartCounters where
  produces : Int
  consumes : Int
  deriving DecidableEq

namespace PartCounters

instance : Zero PartCounters := ⟨⟨0, 0⟩⟩
instance : Add PartCounters := ⟨fun a b => ⟨a.produces + b.produces, a.consumes + b.consumes⟩⟩
instance : Sub PartCounters := ⟨fun a b => ⟨a.produces - b.produces, a.consumes - b.consumes⟩⟩

@[simp] theorem zero_produces : (0 : PartCounters).produces = 0 := rfl
@[simp] theorem zero_consumes : (0 : PartCounters).consumes = 0 := rfl

variable (a b : PartCounters)

@[simp] theorem add_produces :
    (a + b).produces = a.produces + b.produces := rfl

@[simp] theorem add_consumes :
    (a + b).consumes = a.consumes + b.consumes := rfl

@[simp] theorem sub_produces :
    (a - b).produces = a.produces - b.produces := rfl

@[simp] theorem sub_consumes :
    (a - b).consumes = a.consumes - b.consumes := rfl

def produced (n : Int) : PartCounters := ⟨n, 0⟩

def consumed : PartCounters := ⟨0, 1⟩

@[simp] theorem produced_produces (n : Int) : (produced n).produces = n := rfl
@[simp] theorem produced_consumes (n : Int) : (produced n).consumes = 0 := rfl
@[simp] theorem consumed_produces : consumed.produces = 0 := rfl
@[simp] theorem consumed_consumes : consumed.consumes = 1 := rfl

@[simp] theorem add_zero : a + 0 = a := by ext <;> simp
@[simp] theorem zero_add : 0 + a = a := by ext <;> simp
@[simp] theorem sub_self : a - a = 0 := by ext <;> simp

end PartCounters

structure MetricsCollector where
  produceCount : Int
  consumeCount : Int
  lastCollect : Int
  parts : List PartCounters
  /-- `prevPartProduces` and `prevPartConsumes` -/
  prevParts : List PartCounters
  sized : prevParts.length ≤ parts.length

namespace MetricsCollector

def new (now : Int) : MetricsCollector where
  produceCount := 0
  consumeCount := 0
  lastCollect := now
  parts := []
  prevParts := []
  sized := Nat.le_refl 0

/-- An id outside the array has counted nothing. -/
def countersAt (mc : MetricsCollector) (partition : Nat) : PartCounters := mc.parts.getD partition 0

def previousAt (mc : MetricsCollector) (partition : Nat) : PartCounters :=
  mc.prevParts.getD partition 0

@[simp] theorem countersAt_new (now : Int) (p : Nat) : (new now).countersAt p = 0 := rfl
@[simp] theorem previousAt_new (now : Int) (p : Nat) : (new now).previousAt p = 0 := rfl

/-! ## Recording -/

def ensurePartCounters (parts : List PartCounters) (minLen : Nat) : List PartCounters :=
  parts ++ List.replicate (minLen - parts.length) 0

theorem length_ensurePartCounters (parts : List PartCounters) (minLen : Nat) :
    (ensurePartCounters parts minLen).length = max parts.length minLen := by
  simp only [ensurePartCounters, List.length_append, List.length_replicate]
  omega

theorem getD_ensurePartCounters (parts : List PartCounters) (minLen p : Nat) :
    (ensurePartCounters parts minLen).getD p 0 = parts.getD p 0 := by
  simp only [ensurePartCounters, List.getD_eq_getElem?_getD, List.getElem?_append]
  split
  · rfl
  · rename_i outside
    rw [List.getElem?_eq_none (Nat.not_lt.mp outside), List.getElem?_replicate]
    split <;> rfl

/-- What the `Record` functions do under the lock. -/
def addCounters (mc : MetricsCollector) (partition : Nat) (delta : PartCounters) :
    MetricsCollector :=
  { mc with
    parts := (ensurePartCounters mc.parts (partition + 1)).modify partition (· + delta)
    sized := by
      rw [List.length_modify, length_ensurePartCounters]
      exact mc.sized.trans (Nat.le_max_left ..) }

@[simp] theorem countersAt_addCounters (mc : MetricsCollector) (partition : Nat)
    (delta : PartCounters) (p : Nat) :
    (mc.addCounters partition delta).countersAt p =
      if p = partition then mc.countersAt p + delta else mc.countersAt p := by
  have grown := getD_ensurePartCounters mc.parts (partition + 1) p
  have length := length_ensurePartCounters mc.parts (partition + 1)
  rw [List.getD_eq_getElem?_getD] at grown
  rw [countersAt, countersAt, addCounters, List.getD_eq_getElem?_getD, List.getElem?_modify]
  by_cases here : partition = p
  · subst here
    have inside : partition < (ensurePartCounters mc.parts (partition + 1)).length := by omega
    rw [← grown, List.getElem?_eq_getElem inside]
    simp
  · rw [if_neg (Ne.symm here), ← grown]
    simp [here]

@[simp] theorem previousAt_addCounters (mc : MetricsCollector) (partition : Nat)
    (delta : PartCounters) (p : Nat) :
    (mc.addCounters partition delta).previousAt p = mc.previousAt p := rfl

def recordProduceBatch (mc : MetricsCollector) (partition : Nat) (n : Int) : MetricsCollector :=
  { mc with produceCount := mc.produceCount + n }.addCounters partition (.produced n)

def recordProduce (mc : MetricsCollector) (partition : Nat) : MetricsCollector :=
  mc.recordProduceBatch partition 1

def recordConsume (mc : MetricsCollector) (partition : Nat) : MetricsCollector :=
  { mc with consumeCount := mc.consumeCount + 1 }.addCounters partition .consumed

section Record

variable (mc : MetricsCollector) (partition : Nat) (n : Int) (p : Nat)

@[simp] theorem produceCount_recordProduceBatch :
    (mc.recordProduceBatch partition n).produceCount = mc.produceCount + n := rfl

@[simp] theorem countersAt_recordProduceBatch :
    (mc.recordProduceBatch partition n).countersAt p =
      if p = partition then mc.countersAt p + .produced n else mc.countersAt p :=
  countersAt_addCounters ..

@[simp] theorem previousAt_recordProduceBatch :
    (mc.recordProduceBatch partition n).previousAt p = mc.previousAt p := rfl

@[simp] theorem countersAt_recordConsume :
    (mc.recordConsume partition).countersAt p =
      if p = partition then mc.countersAt p + .consumed else mc.countersAt p :=
  countersAt_addCounters ..

@[simp] theorem previousAt_recordConsume :
    (mc.recordConsume partition).previousAt p = mc.previousAt p := rfl

end Record

/-! ## Saving and removing -/

/-- The saved arrays are made anew when they are too short, and are filled with
the current counters; a longer one keeps its tail. -/
def savePrevCounters (mc : MetricsCollector) : MetricsCollector :=
  { mc with
    prevParts := mc.parts ++ mc.prevParts.drop mc.parts.length
    sized := by
      rw [List.length_append, List.length_drop]
      have := mc.sized
      omega }

variable (mc : MetricsCollector)

@[simp] theorem countersAt_savePrevCounters (p : Nat) :
    mc.savePrevCounters.countersAt p = mc.countersAt p := rfl

@[simp] theorem previousAt_savePrevCounters (p : Nat) :
    mc.savePrevCounters.previousAt p = mc.countersAt p := by
  simp [savePrevCounters, previousAt, countersAt, List.drop_eq_nil_of_le mc.sized]

def removePartition (mc : MetricsCollector) (partID : Nat) : MetricsCollector :=
  { mc with
    parts := mc.parts.set partID 0
    prevParts := mc.prevParts.set partID 0
    sized := by
      rw [List.length_set, List.length_set]
      exact mc.sized }

theorem getD_set_zero (counters : List PartCounters) (partID p : Nat) :
    (counters.set partID 0).getD p 0 = if p = partID then 0 else counters.getD p 0 := by
  simp only [List.getD_eq_getElem?_getD, List.getElem?_set]
  by_cases here : partID = p
  · subst here
    rw [if_pos rfl, if_pos rfl]
    split <;> rfl
  · rw [if_neg here, if_neg (Ne.symm here)]

@[simp] theorem countersAt_removePartition (partID p : Nat) :
    (mc.removePartition partID).countersAt p = if p = partID then 0 else mc.countersAt p :=
  getD_set_zero ..

@[simp] theorem previousAt_removePartition (partID p : Nat) :
    (mc.removePartition partID).previousAt p = if p = partID then 0 else mc.previousAt p :=
  getD_set_zero ..

/-! ## Collect -/

/-- What `Collect` reads of a partition in one critical section. -/
structure Reading where
  current : PartCounters
  previous : PartCounters
  deriving DecidableEq

namespace Reading

def depth (r : Reading) : Int := max 0 (r.current.produces - r.current.consumes)

/-- `deltaProd` and `deltaCons` -/
def delta (r : Reading) : PartCounters := r.current - r.previous

def load (r : Reading) : Rat :=
  if 0 < r.delta.produces then
    ((max 0 (r.delta.produces - r.delta.consumes) : Int) : Rat) / (r.delta.produces : Rat)
  else 0

end Reading

def read (mc : MetricsCollector) (partition : Nat) : Reading where
  current := mc.countersAt partition
  previous := mc.previousAt partition

@[simp] theorem delta_read (mc : MetricsCollector) (p : Nat) :
    (mc.read p).delta = mc.countersAt p - mc.previousAt p := rfl

/-- A call of `Collect` between its first and its last critical section. -/
structure Collecting where
  elapsed : Rat
  produced : Int
  consumed : Int
  /-- the ids of the partitions that are still to be read -/
  left : List Nat
  readings : List (Nat × Reading)

/-- Times are in nanoseconds; at least a millisecond counts as elapsed. -/
def elapsed (mc : MetricsCollector) (now : Int) : Rat :=
  max (((now - mc.lastCollect : Int) : Rat) / 1000000000) (1 / 1000)

/-- The first part of `Collect`: the clock, the two counts that start again from
zero, and the partitions of the topics in the order `Range` finds them. -/
def beginCollect (mc : MetricsCollector) (partIDs : List Nat) (now : Int) :
    Collecting × MetricsCollector :=
  ({ elapsed := mc.elapsed now
     produced := mc.produceCount
     consumed := mc.consumeCount
     left := partIDs
     readings := [] },
   { mc with produceCount := 0, consumeCount := 0, lastCollect := now })

namespace Collecting

def readNext (c : Collecting) (mc : MetricsCollector) : Collecting :=
  match c.left with
  | [] => c
  | partition :: rest =>
      { c with left := rest, readings := c.readings ++ [(partition, mc.read partition)] }

def metrics (c : Collecting) : Metrics Rat where
  partitionLoads := c.readings.map fun entry => entry.2.load
  queueDepth := c.readings.map fun entry => entry.2.depth
  msgRate := c.produced / c.elapsed
  throughput := (c.produced + c.consumed) / c.elapsed

end Collecting

/-- `Collect` without another call in between. -/
def collect (mc : MetricsCollector) (partIDs : List Nat) (now : Int) :
    Metrics Rat × MetricsCollector :=
  let started := mc.beginCollect partIDs now
  let readings := partIDs.map fun partition => (partition, mc.read partition)
  ({ started.1 with left := [], readings := readings }.metrics, started.2.savePrevCounters)

@[simp] theorem countersAt_collect (mc : MetricsCollector) (partIDs : List Nat) (now : Int)
    (p : Nat) : (mc.collect partIDs now).2.countersAt p = mc.countersAt p := rfl

@[simp] theorem queueDepth_collect (mc : MetricsCollector) (partIDs : List Nat) (now : Int) :
    (mc.collect partIDs now).1.queueDepth = partIDs.map fun p => (mc.read p).depth := by
  simp [collect, Collecting.metrics, Function.comp_def]

end MetricsCollector

end NyaQueue
