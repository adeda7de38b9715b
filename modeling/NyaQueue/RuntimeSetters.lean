import NyaQueue.Lib.CasLoop

/-!
# The setters of the runtime

`SetBalancer`, `SetSchedulerFactory` and `SetBackpressure` of `pkg/broker/broker.go`
change one field each of a snapshot behind one pointer, in a compare-and-swap loop.
`SetBalancer` then stops the balancer of the snapshot it has replaced, in a
goroutine of its own.  Balancers, controllers and factories are opaque here.
-/

set_option autoImplicit false

namespace NyaQueue

/-- The balancers, backpressure controllers and scheduler factories of a program,
and which balancers are a `Stopper`. -/
structure RuntimeTypes where
  Balancer : Type
  Backpressure : Type
  SchedulerFactory : Type
  stoppable : Balancer → Bool

variable (R : RuntimeTypes)

structure RuntimeSnap where
  balancer : Option R.Balancer
  backpressure : Option R.Backpressure
  schedulerFactory : Option R.SchedulerFactory

inductive RuntimeUpdate where
  | balancer (bal : Option R.Balancer)
  | schedulerFactory (fn : Option R.SchedulerFactory)
  | backpressure (bp : Option R.Backpressure)

variable {R}

namespace RuntimeUpdate

/-- The snapshot that a setter makes of the one it has loaded. -/
def apply : RuntimeUpdate R → RuntimeSnap R → RuntimeSnap R
  | .balancer bal, old => { old with balancer := bal }
  | .schedulerFactory fn, old => { old with schedulerFactory := fn }
  | .backpressure bp, old => { old with backpressure := bp }

def balancer? : RuntimeUpdate R → Option (Option R.Balancer)
  | .balancer bal => some bal
  | _ => none

def schedulerFactory? : RuntimeUpdate R → Option (Option R.SchedulerFactory)
  | .schedulerFactory fn => some fn
  | _ => none

def backpressure? : RuntimeUpdate R → Option (Option R.Backpressure)
  | .backpressure bp => some bp
  | _ => none

/-- What a setter stops once it has replaced `old`. -/
def stops (u : RuntimeUpdate R) (old : RuntimeSnap R) : List R.Balancer :=
  match u with
  | .balancer _ => old.balancer.toList.filter R.stoppable
  | _ => []

end RuntimeUpdate

abbrev RuntimeSwap (R : RuntimeTypes) := CasLoop.Swap (RuntimeSnap R) (RuntimeUpdate R)

structure RuntimeRun (R : RuntimeTypes) where
  cas : CasLoop.Run (RuntimeSnap R) (RuntimeUpdate R)
  /-- the calls that have returned, with what they had swapped -/
  returned : List (RuntimeSwap R)

inductive RuntimeEvent (R : RuntimeTypes) where
  | call (u : RuntimeUpdate R)
  | advance (i : Nat)
  /-- a setter whose swap has succeeded stops what it has replaced, and returns -/
  | finish (i : Nat)

namespace RuntimeRun

def start (first : RuntimeSnap R) : RuntimeRun R := ⟨.start first, []⟩

def step (s : RuntimeRun R) : RuntimeEvent R → RuntimeRun R
  | .call u => { s with cas := s.cas.step RuntimeUpdate.apply (.call u) }
  | .advance i => { s with cas := s.cas.step RuntimeUpdate.apply (.advance i) }
  | .finish i =>
      match s.cas.threads[i]? with
      | some (.swapped u old) =>
          if i ∈ s.returned.map CasLoop.Swap.thread then s
          else { s with returned := ⟨i, u, old⟩ :: s.returned }
      | _ => s

/-- The calls of `Stop` so far. -/
def stops (s : RuntimeRun R) : List R.Balancer :=
  s.returned.flatMap fun sw => sw.update.stops sw.old

def value (s : RuntimeRun R) : RuntimeSnap R := s.cas.cell.value

/-- All calls have returned. -/
def Quiet (s : RuntimeRun R) : Prop :=
  ∀ i < s.cas.threads.length, i ∈ s.returned.map CasLoop.Swap.thread

theorem setter_alone (s : RuntimeRun R) (u : RuntimeUpdate R)
    (fresh : s.cas.threads.length ∉ s.returned.map CasLoop.Swap.thread) :
    let i := s.cas.threads.length
    let s' := Runs.final step s [.call u, .advance i, .advance i, .finish i]
    s'.value = u.apply s.value ∧ s'.stops = u.stops s.value ++ s.stops := by
  simp [Runs.final, step, CasLoop.Run.step, CasLoop.Run.resume, CasLoop.Run.swap, value, stops,
    fresh]

/-! ## Every run -/

section Fields

variable {first v : RuntimeSnap R} {swaps : List (RuntimeSwap R)}

/-- The last value given to a field, or the first one. -/
def latest {α : Type} (set? : RuntimeUpdate R → Option α) (swaps : List (RuntimeSwap R))
    (fallback : α) : α :=
  (CasLoop.given set? swaps).headD fallback

theorem field_latest {α : Type} {get : RuntimeSnap R → α} {set? : RuntimeUpdate R → Option α}
    (law : ∀ (u : RuntimeUpdate R) (v : RuntimeSnap R), get (u.apply v) = (set? u).getD (get v))
    (chain : CasLoop.Chain RuntimeUpdate.apply first swaps v) :
    get v = latest set? swaps (get first) := by
  have values := chain.field law swaps v
  unfold latest
  cases given : CasLoop.given set? swaps with
  | nil =>
    rw [given] at values
    exact (List.cons.inj values).1
  | cons value rest =>
    rw [given] at values
    exact (List.cons.inj values).1

variable (u : RuntimeUpdate R) (v : RuntimeSnap R)

theorem balancer_law :
    (u.apply v).balancer = u.balancer?.getD v.balancer := by
  cases u <;> rfl

theorem schedulerFactory_law :
    (u.apply v).schedulerFactory = u.schedulerFactory?.getD v.schedulerFactory := by
  cases u <;> rfl

theorem backpressure_law :
    (u.apply v).backpressure = u.backpressure?.getD v.backpressure := by
  cases u <;> rfl

end Fields

/-- The balancers that have been given to the broker. -/
def balancers (first : RuntimeSnap R) (s : RuntimeRun R) : List R.Balancer :=
  (s.cas.calls.filterMap RuntimeUpdate.balancer? ++ [first.balancer]).filterMap id

/-- No update is lost, and of the balancers that can be stopped exactly those that
were replaced have been, once. -/
structure Settled (first : RuntimeSnap R) (s : RuntimeRun R) : Prop where
  balancer : s.value.balancer = latest RuntimeUpdate.balancer? s.cas.swaps first.balancer
  schedulerFactory : s.value.schedulerFactory =
    latest RuntimeUpdate.schedulerFactory? s.cas.swaps first.schedulerFactory
  backpressure : s.value.backpressure =
    latest RuntimeUpdate.backpressure? s.cas.swaps first.backpressure
  /-- the successful swaps are those of the calls, one each -/
  calls : (s.cas.swaps.map CasLoop.Swap.update).Perm s.cas.calls
  stopped : ∀ bal, bal ∈ s.stops ↔
    R.stoppable bal = true ∧ bal ∈ balancers first s ∧ s.value.balancer ≠ some bal
  once : s.stops.Nodup

structure Inv (first : RuntimeSnap R) (s : RuntimeRun R) : Prop where
  sound : CasLoop.Sound RuntimeUpdate.apply first s.cas
  returned : ∀ sw ∈ s.returned, sw ∈ s.cas.swaps
  distinct : (s.returned.map CasLoop.Swap.thread).Nodup

section Step

variable {first : RuntimeSnap R} {s : RuntimeRun R}

theorem inv_start (first : RuntimeSnap R) : Inv first (start first) where
  sound := CasLoop.sound_start _ first
  returned _ member := by cases member
  distinct := List.nodup_nil

theorem Inv.step (inv : Inv first s) (e : RuntimeEvent R) : Inv first (s.step e) := by
  cases e with
  | call u =>
    exact ⟨inv.sound.step (.call u), fun sw member => CasLoop.swaps_subset _ _ _ (inv.returned sw member),
      inv.distinct⟩
  | advance i =>
    exact ⟨inv.sound.step (.advance i),
      fun sw member => CasLoop.swaps_subset _ _ _ (inv.returned sw member), inv.distinct⟩
  | finish i =>
    simp only [RuntimeRun.step]
    split
    · rename_i u old here
      split
      · exact inv
      · rename_i running
        refine ⟨inv.sound, ?_, ?_⟩
        · rw [List.forall_mem_cons]
          exact ⟨(inv.sound.recorded i u old).mpr here, inv.returned⟩
        · rw [List.map_cons, List.nodup_cons]
          exact ⟨running, inv.distinct⟩
    · exact inv

theorem Inv.returned_perm (inv : Inv first s) (quiet : s.Quiet) : s.returned.Perm s.cas.swaps := by
  rw [List.perm_ext_iff_of_nodup (List.Nodup.of_map _ inv.distinct)
    (List.Nodup.of_map _ inv.sound.once)]
  intro sw
  refine ⟨inv.returned sw, fun member => ?_⟩
  have here := (inv.sound.recorded sw.thread sw.update sw.old).mp member
  have inside := (List.getElem?_eq_some_iff.mp here).1
  obtain ⟨sw', returned, same⟩ := List.mem_map.mp (quiet sw.thread inside)
  exact inv.sound.swap_unique (inv.returned sw' returned) member same ▸ returned

theorem flatMap_stops (swaps : List (RuntimeSwap R)) :
    (swaps.flatMap fun sw => sw.update.stops sw.old) =
      ((CasLoop.replaced RuntimeSnap.balancer RuntimeUpdate.balancer? swaps).filterMap id).filter
        R.stoppable := by
  induction swaps with
  | nil => rfl
  | cons sw rest ih =>
    rw [List.flatMap_cons, ih]
    obtain ⟨i, u, old⟩ := sw
    cases u with
    | balancer bal =>
      cases before : old.balancer with
      | none => simp [CasLoop.replaced, RuntimeUpdate.stops, RuntimeUpdate.balancer?, before]
      | some bal' =>
        simp only [CasLoop.replaced, RuntimeUpdate.stops, RuntimeUpdate.balancer?, before,
          List.filterMap_cons, Option.map_some, Option.toList_some, List.filter_cons,
          List.filter_nil, id]
        split <;> rfl
    | schedulerFactory fn =>
      simp [CasLoop.replaced, RuntimeUpdate.stops, RuntimeUpdate.balancer?]
    | backpressure bp =>
      simp [CasLoop.replaced, RuntimeUpdate.stops, RuntimeUpdate.balancer?]

theorem Inv.settled (inv : Inv first s) (quiet : s.Quiet) (distinct : (balancers first s).Nodup) :
    Settled first s := by
  have done := inv.returned_perm quiet
  have calls := inv.sound.calls_perm fun i small =>
    (done.map CasLoop.Swap.thread).mem_iff.mp (quiet i small)
  have chain := inv.sound.chain
  -- the installed balancer and those it replaced are the ones given to the broker
  have values := chain.field balancer_law s.cas.swaps s.value
  have asked := calls.filterMap RuntimeUpdate.balancer?
  rw [List.filterMap_map] at asked
  have given : ((s.value.balancer :: CasLoop.replaced RuntimeSnap.balancer
      RuntimeUpdate.balancer? s.cas.swaps).filterMap id).Perm (balancers first s) := by
    rw [values]
    exact (asked.append_right [first.balancer]).filterMap id
  have stops : s.stops.Perm (((CasLoop.replaced RuntimeSnap.balancer RuntimeUpdate.balancer?
      s.cas.swaps).filterMap id).filter R.stoppable) := by
    rw [← flatMap_stops]
    exact done.flatMap_right _
  have nodup := given.nodup_iff.mpr distinct
  refine ⟨field_latest balancer_law chain, field_latest schedulerFactory_law chain,
    field_latest backpressure_law chain, calls, fun bal => ?_, ?_⟩
  · rw [stops.mem_iff, List.mem_filter, ← given.mem_iff, and_comm]
    refine and_congr_right fun _ => ?_
    cases installed : s.value.balancer with
    | none => simp
    | some bal' =>
      rw [installed] at nodup
      simp only [List.filterMap_cons, id, List.nodup_cons] at nodup ⊢
      rw [List.mem_cons]
      constructor
      · intro member
        refine ⟨.inr member, fun same => ?_⟩
        cases same
        exact nodup.1 member
      · rintro ⟨here | before, different⟩
        · exact absurd (congrArg some here.symm) different
        · exact before
  · rw [stops.nodup_iff]
    apply List.Nodup.filter
    refine nodup.sublist ?_
    exact (List.sublist_cons_self _ _).filterMap id

end Step

/-- In every interleaving of setters with different balancers, once all of them have
returned every field holds what was given to it last, and the balancers that were
replaced have been stopped. -/
theorem setters_settle (first : RuntimeSnap R) (events : List (RuntimeEvent R)) :
    ∀ s ∈ Runs.states step (start first) events, s.Quiet → (balancers first s).Nodup →
      Settled first s := by
  intro s member quiet distinct
  have keep : ∀ s e, Inv first s → Inv first (s.step e) := fun s e inv => inv.step e
  exact (Runs.invariant_of_step keep events _ (inv_start first) s member).settled quiet distinct

/-- Numbers for everything; all balancers can be stopped. -/
def numbered : RuntimeTypes := ⟨Nat, Nat, Nat, fun _ => true⟩

def balancerZero : RuntimeSnap numbered := ⟨some (0 : Nat), none, none⟩

/-- Three setters, of which two lose a swap and try again. -/
def racingSetters : List (RuntimeEvent numbered) :=
  [.call (.balancer (some (1 : Nat))), .call (.backpressure (some (7 : Nat))), .advance 0, .advance 1,
    .advance 0, .advance 1, .call (.balancer (some (2 : Nat))), .advance 2, .advance 1, .advance 1,
    .advance 2, .advance 2, .advance 2, .finish 0, .finish 2, .finish 1]

theorem setters_settle_three :
    (Runs.final step (start balancerZero) racingSetters).stops = ([1, 0] : List Nat) ∧
    Settled balancerZero (Runs.final step (start balancerZero) racingSetters) := by
  have outcome : (Runs.final step (start balancerZero) racingSetters).stops = ([1, 0] : List Nat) ∧
      (∀ i < (Runs.final step (start balancerZero) racingSetters).cas.threads.length,
        i ∈ (Runs.final step (start balancerZero) racingSetters).returned.map
          CasLoop.Swap.thread) ∧
      balancers balancerZero (Runs.final step (start balancerZero) racingSetters) =
        ([1, 2, 0] : List Nat) := ⟨by rfl, by decide +kernel, by rfl⟩
  obtain ⟨stops, quiet, given⟩ := outcome
  refine ⟨stops, setters_settle balancerZero racingSetters _
    (Runs.final_mem_states step racingSetters _) quiet ?_⟩
  rw [given]
  exact (by decide : ([1, 2, 0] : List Nat).Nodup)

end RuntimeRun

end NyaQueue
