import NyaQueue.ExactFloat
import NyaQueue.Lib.Runs
import Mathlib.Order.Interval.Finset.Nat

/-!
# Fairness of the round robin

One counter serves all calls, so the slot of a call is its number modulo the
number of partitions it asks for.  While nothing makes the balancer skip, a
window of calls for `n` partitions takes the residues modulo `n` in turn, wherever
the window starts.  Once loads are published the slot is only where the search
begins.
-/

set_option autoImplicit false

namespace NyaQueue

open FloatArith

variable {F : Type} [FloatConv F]

/-- The calls a round robin gets. -/
inductive RoundRobinCall (F : Type) where
  | selectPartition (numPartitions : Nat)
  | onMetrics (m : Metrics F)

/-- The metrics of the call have loads in them. -/
def RoundRobinCall.publishes {F : Type} : RoundRobinCall F → Bool
  | .selectPartition _ => false
  | .onMetrics m => !m.partitionLoads.isEmpty

namespace RoundRobin

def call (rr : RoundRobin F) : RoundRobinCall F → RoundRobin F
  | .selectPartition numPartitions => (rr.selectPartition numPartitions).2
  | .onMetrics m => rr.onMetrics m

/-- What the calls of `SelectPartition` return. -/
def answers (rr : RoundRobin F) : List (RoundRobinCall F) → List (Option Nat)
  | [] => []
  | .selectPartition numPartitions :: rest =>
      (rr.selectPartition numPartitions).1 :: answers (rr.selectPartition numPartitions).2 rest
  | .onMetrics m :: rest => answers (rr.onMetrics m) rest

/-- The partition has a known load above the threshold. -/
def Overloaded (loads : List F) (threshold : F) (idx : Nat) : Prop :=
  ∃ load, loads[idx]? = some load ∧ lt threshold load = true

variable (rr : RoundRobin F)

theorem selectPartition_state (n : Nat) :
    (rr.selectPartition n).2 = { rr with counter := rr.counter + 1 } := by
  unfold selectPartition
  dsimp only
  split
  · rfl
  · split
    · rfl
    · split <;> rfl

omit [FloatConv F] in
theorem onMetrics_state (m : Metrics F) :
    rr.onMetrics m = { rr with loads := (rr.onMetrics m).loads } := by
  unfold onMetrics
  split <;> rfl

theorem call_settings (c : RoundRobinCall F) :
    (rr.call c).skipThreshold = rr.skipThreshold ∧ (rr.call c).skipBudget = rr.skipBudget := by
  cases c with
  | selectPartition n =>
    rw [call, selectPartition_state]
    exact ⟨rfl, rfl⟩
  | onMetrics m =>
    rw [call, onMetrics_state]
    exact ⟨rfl, rfl⟩

variable {rr : RoundRobin F} {n : Nat}

variable (calls : List (RoundRobinCall F))

/-- Nothing makes the balancer leave the slot of a call. -/
def Plain (rr : RoundRobin F) : Prop := rr.skipBudget ≤ 0 ∨ rr.loads = none

theorem Plain.call (plain : rr.Plain) {c : RoundRobinCall F}
    (quiet : rr.skipBudget ≤ 0 ∨ c.publishes = false) : (rr.call c).Plain := by
  rcases plain with spent | unknown
  · left
    rw [(rr.call_settings c).2]
    exact spent
  · rcases quiet with spent | silent
    · left
      rw [(rr.call_settings c).2]
      exact spent
    · right
      cases c with
      | selectPartition n =>
        rw [RoundRobin.call, selectPartition_state]
        exact unknown
      | onMetrics m =>
        have empty : m.partitionLoads = [] := by
          simpa [RoundRobinCall.publishes] using silent
        rw [RoundRobin.call, RoundRobin.onMetrics, if_pos empty]
        exact unknown

end RoundRobin

end NyaQueue
