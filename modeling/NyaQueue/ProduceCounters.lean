import NyaQueue.ClientRetries
import NyaQueue.MetricsCollector
import Mathlib.Algebra.BigOperators.Group.Finset.Basic

/-!
# What the produce counters count

`Publish` counts a message once it is appended.  A goroutine of `PublishBatch`
counts its group when it has tried to append it.  Appending and counting are
different steps here, and other calls may come between them: what has been
appended by calls that are still to count it is `uncounted`.
-/

set_option autoImplicit false

namespace NyaQueue

namespace Broker

/-- The number of messages stored in partition `p` of a topic between two states. -/
def storedIn (b b' : Broker) (name : Bytes) (p : Nat) : Nat := (gained b b' name p).length

def storedAll (b b' : Broker) (name : Bytes) : Nat :=
  ∑ p ∈ Finset.range (((b.topics name).map fun t => t.partitions.length).getD 0),
    storedIn b b' name p

/-- A step stores `n` messages in partition `k`, and no other ones. -/
structure Grew (b b' : Broker) (name : Bytes) (k n : Nat) : Prop where
  here : storedIn b b' name k = n
  elsewhere : ∀ p, p ≠ k → storedIn b b' name p = 0
  inside : n ≠ 0 → ∃ t, b.topics name = some t ∧ k < t.partitions.length

variable {b : Broker} {name : Bytes}

theorem Grew.storedAll {b' : Broker} {k n : Nat} (grew : Grew b b' name k n) :
    storedAll b b' name = n := by
  rw [Broker.storedAll, Finset.sum_eq_single k]
  · exact grew.here
  · intro p _ other
    exact grew.elsewhere p other
  · intro outside
    by_contra stored
    obtain ⟨t, there, inside⟩ := grew.inside (grew.here ▸ stored)
    rw [there, Finset.mem_range] at outside
    exact outside inside

theorem Grew.of_append {t : Topic} (there : b.topics name = some t) {partIdx : Int}
    {p q : Partition} (found : t.partition partIdx = .ok p) {n : Nat}
    (grown : q.log.nextIndex = p.log.nextIndex + n) :
    Grew b (b.setTopic name (t.setPartition partIdx q)) name partIdx.toNat n := by
  obtain ⟨valid, at_id⟩ := (t.partition_ok_iff partIdx p).mp found
  obtain ⟨inside, -⟩ := List.getElem?_eq_some_iff.mp at_id
  have same : (partIdx.toNat : Int) = partIdx := Int.toNat_of_nonneg valid
  refine ⟨?_, ?_, fun _ => ⟨t, there, inside⟩⟩
  · have before : b.partition? name partIdx = some p := by
      rw [partition?_of_topic there, found]
      rfl
    rw [storedIn, gained, same, before, partition?_setPartition_self b name found]
    simp [grown]
  · intro p' other
    have different : (p' : Int) ≠ partIdx := by omega
    rw [storedIn, gained_of_logs fun r before =>
      ⟨r, (partition?_setPartition_ne there found different q).trans before, rfl⟩]
    rfl

end Broker

/-! ## Runs -/

structure ProduceRun where
  broker : Broker
  metrics : MetricsCollector
  /-- partition and number of the messages that a call is about to count -/
  uncounted : List (Nat × Nat)
  /-- the messages stored so far, by partition id and in all -/
  stored : Nat → Nat
  total : Nat

inductive ProduceEvent where
  | publish (snap : ConfigSnapshot) (name : Bytes) (msg : Message) (env : PublishEnv)
  /-- a group of a `PublishBatch`, once it is past the gate -/
  | group (snap : ConfigSnapshot) (name : Bytes) (partIdx : Int) (msgs : List Message)
      (env : AppendEnv)
  /-- one of the calls that have appended counts -/
  | count (i : Nat)

namespace ProduceRun

def start (b : Broker) (metrics : MetricsCollector) : ProduceRun := ⟨b, metrics, [], fun _ => 0, 0⟩

/-- The broker goes on to `b'`, and a call is left with `counts`. -/
def appended (s : ProduceRun) (name : Bytes) (b' : Broker) (counts : List (Nat × Nat)) :
    ProduceRun :=
  { s with
    broker := b'
    uncounted := counts ++ s.uncounted
    stored := fun p => s.stored p + s.broker.storedIn b' name p
    total := s.total + s.broker.storedAll b' name }

def step (s : ProduceRun) : ProduceEvent → ProduceRun
  | .publish snap name msg env =>
      let result := Broker.publishWith snap s.broker name msg env
      s.appended name result.2.2 (match result.1 with
        | .ok (partIdx, _) => [(partIdx.toNat, 1)]
        | .error _ => [])
  | .group snap name partIdx msgs env =>
      match s.broker.topics name with
      | none => s
      | some t =>
          let result := appendPartitionBatch snap t partIdx msgs env
          -- a group without a partition returns at once; any other is counted
          s.appended name (s.broker.setTopic name result.2) (match t.partition partIdx with
            | .ok _ => [(partIdx.toNat, msgs.length)]
            | .error _ => [])
  | .count i =>
      match s.uncounted[i]? with
      | none => s
      | some (partition, n) =>
          { s with
            metrics := s.metrics.recordProduceBatch partition n
            uncounted := s.uncounted.eraseIdx i }

/-- The number of messages still to be counted in the partitions `among`. -/
def waiting (s : ProduceRun) (among : Nat → Bool) : Nat :=
  ((s.uncounted.filter fun entry => among entry.1).map Prod.snd).sum

/-- Since `first` the counters have gone up by the messages stored, apart from
those that a call is about to count. -/
structure Balanced (first : MetricsCollector) (s : ProduceRun) : Prop where
  all : s.metrics.produceCount + s.waiting (fun _ => true) = first.produceCount + s.total
  each : ∀ p, (s.metrics.countersAt p).produces + s.waiting (fun q => q = p) =
    (first.countersAt p).produces + s.stored p

/-- A group that finds its partition is written. -/
def Written (s : ProduceRun) : ProduceEvent → Prop
  | .group snap name partIdx msgs env => ∀ t, s.broker.topics name = some t →
      ∀ p, t.partition partIdx = .ok p →
        msgs = [] ∨ Encodable snap msgs env ∧ p.Writable msgs.length env.disk
  | _ => True

section Step

variable {first : MetricsCollector} {s : ProduceRun}

@[simp] theorem metrics_appended (s : ProduceRun) (name : Bytes) (b' : Broker)
    (counts : List (Nat × Nat)) : (s.appended name b' counts).metrics = s.metrics := rfl

@[simp] theorem stored_appended (s : ProduceRun) (name : Bytes) (b' : Broker)
    (counts : List (Nat × Nat)) (p : Nat) :
    (s.appended name b' counts).stored p = s.stored p + s.broker.storedIn b' name p := rfl

@[simp] theorem total_appended (s : ProduceRun) (name : Bytes) (b' : Broker)
    (counts : List (Nat × Nat)) :
    (s.appended name b' counts).total = s.total + s.broker.storedAll b' name := rfl

@[simp] theorem waiting_appended (s : ProduceRun) (name : Bytes) (b' : Broker)
    (counts : List (Nat × Nat)) (among : Nat → Bool) :
    (s.appended name b' counts).waiting among =
      ((counts.filter fun entry => among entry.1).map Prod.snd).sum + s.waiting among := by
  simp [waiting, appended]

variable {name : Bytes} {b' : Broker} {k n : Nat}

theorem Balanced.append (balanced : Balanced first s) (grew : Broker.Grew s.broker b' name k n) :
    Balanced first (s.appended name b' [(k, n)]) := by
  obtain ⟨all, each⟩ := balanced
  refine ⟨?_, fun p => ?_⟩
  · simp [grew.storedAll]
    omega
  · have before := each p
    by_cases here : k = p
    · subst here
      simp [grew.here]
      omega
    · simp [here, grew.elsewhere p (Ne.symm here)]
      omega

theorem waiting_eraseIdx (s : ProduceRun) {i partition : Nat}
    (at_i : s.uncounted[i]? = some (partition, n)) (among : Nat → Bool) :
    s.waiting among = (if among partition then n else 0) +
      { s with uncounted := s.uncounted.eraseIdx i }.waiting among := by
  obtain ⟨inside, entry⟩ := List.getElem?_eq_some_iff.mp at_i
  have same := List.getElem_cons_eraseIdx_perm inside
  rw [entry] at same
  have sums := ((same.filter fun entry => among entry.1).map Prod.snd).sum_eq
  rw [waiting, waiting, ← sums]
  by_cases counted : among partition = true
  · simp [counted]
  · simp [counted]

theorem Balanced.count (balanced : Balanced first s) (i : Nat) :
    Balanced first (s.step (.count i)) := by
  cases at_i : s.uncounted[i]? with
  | none => simpa only [step, at_i] using balanced
  | some entry =>
    obtain ⟨partition, n⟩ := entry
    obtain ⟨all, each⟩ := balanced
    simp only [step, at_i]
    refine ⟨?_, fun p => ?_⟩
    · rw [s.waiting_eraseIdx at_i] at all
      simp only [waiting] at all ⊢
      simp at all ⊢
      omega
    · have before := each p
      rw [s.waiting_eraseIdx at_i] at before
      simp only [waiting, MetricsCollector.countersAt_recordProduceBatch] at before ⊢
      by_cases here : partition = p
      · subst here
        simp at before ⊢
        omega
      · rw [if_neg (Ne.symm here)]
        simp [here] at before ⊢
        omega

end Step

theorem takesGroups (snap : ConfigSnapshot) (name : Bytes) :
    Broker.TakesGroups step broker (.group snap name) snap name (fun _ => True)
      (fun _ _ _ _ => True) where
  fits_step _ _ _ _ _ _ _ := trivial
  broker_step s t partIdx msgs env _ there := by
    simp only [step, there]
    rfl
  acked_kept _ _ _ _ _ _ _ _ _ _ _ := trivial
  acked_ok _ _ _ _ _ _ _ _ _ _ _ _ _ _ := trivial

theorem publishBatchWith_is_run (snap : ConfigSnapshot) {s : ProduceRun} {name : Bytes} {t : Topic}
    (there : s.broker.topics name = some t) (msgs : List Message) (env : BatchEnv) :
    let keys := Broker.groupKeys snap.cfg env msgs
    (Runs.final step s (Broker.groupEvents (.group snap name) snap.cfg env msgs (keys.length = 1)
      keys)).broker = (Broker.publishBatchWith snap s.broker name msgs env).2 :=
  (Broker.publishBatch_run (takesGroups snap name) trivial there msgs env).2.1

end ProduceRun

end NyaQueue
