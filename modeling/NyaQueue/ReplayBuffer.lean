import NyaQueue.Lib.CircularBuffer
import NyaQueue.Lib.Counter
import NyaQueue.Lib.Schedule
import Mathlib.Algebra.Ring.Int.Defs
import Mathlib.Data.List.Nodup
import Mathlib.Logic.Function.Basic

/-!
# The lock-free replay buffer

Model of `ReplayBuffer` (`pkg/nn/replay_buffer.go`) under any interleaving of its
calls.  A push claims an index and later stores a pointer to its copy of the
transition into the slot of that index; the length that a sample reads counts the
claims, whether or not the pointers are there.  A pointer is known by the push that
made it, so that a run does not depend on what is pushed.

Two things decide whether a run is right whatever is pushed: every entry of a
returned batch was loaded from a slot that a store had filled, and in each slot the
push that claimed it last is also the last to store.
-/

set_option autoImplicit false

namespace NyaQueue

open CircularBuffer Counter

structure Transition (F : Type) where
  state : List F
  action : List F
  reward : F
  nextState : List F
  done : Bool
  deriving DecidableEq, Repr

/-- The zero `Transition`. -/
def Transition.zero {F : Type} [Zero F] : Transition F := ⟨[], [], 0, [], false⟩

/-- What a call does in one step; each call is known by its number. -/
inductive ReplayEvent where
  /-- `Push` adds one to `writeIdx`. -/
  | claim (call : Nat)
  /-- `Push` stores its pointer. -/
  | store (call : Nat)
  /-- `Sample` reads the length and makes the batch. -/
  | sample (call : Nat) (batchSize : Int)
  /-- `SampleInto`, in `Sample`, reads the length. -/
  | sampleInto (call : Nat)
  /-- A turn of the loop of `SampleInto`, for the index that was drawn. -/
  | load (call draw : Nat)

/-- The call that makes the step. -/
def ReplayEvent.call : ReplayEvent → Nat
  | .claim c => c
  | .store c => c
  | .sample c _ => c
  | .sampleInto c => c
  | .load c _ => c

/-- Where a call stands. -/
inductive ReplayCall where
  | claimed (idx : Int64)
  | stored
  | sized (batchSize : Nat)
  /-- The pointers are what the turns of the loop have loaded. -/
  | loading (batchSize n count : Nat) (ptrs : List (Option Nat))
  | returned (batchSize : Nat) (ptrs : List (Option Nat))

structure ReplayBuffer where
  slots : List (Option Nat)
  writeIdx : Int64
  calls : Nat → Option ReplayCall

namespace ReplayBuffer

/-- `NewReplayBuffer` -/
def new (capacity : Nat) : ReplayBuffer := ⟨List.replicate capacity none, 0, fun _ => none⟩

/-- `Len` -/
def len (rb : ReplayBuffer) : Int :=
  if (rb.slots.length : Int) ≤ rb.writeIdx.toInt then rb.slots.length else rb.writeIdx.toInt

def goesOn (rb : ReplayBuffer) (c : Nat) (call : ReplayCall) : ReplayBuffer :=
  { rb with calls := Function.update rb.calls c (some call) }

/-- A batch of negative size stops the program at `make`. -/
def beginSample (rb : ReplayBuffer) (c : Nat) (batchSize : Int) : Option ReplayBuffer :=
  if rb.len = 0 then some (rb.goesOn c (.returned 0 []))
  else
    let batchSize := if rb.len < batchSize then rb.len else batchSize
    if batchSize < 0 then none else some (rb.goesOn c (.sized batchSize.toNat))

def beginSampleInto (rb : ReplayBuffer) (c batchSize : Nat) : ReplayBuffer :=
  if rb.len = 0 then rb.goesOn c (.returned batchSize [])
  else
    let count := if rb.len < batchSize then rb.len else batchSize
    if count ≤ 0 then rb.goesOn c (.returned batchSize [])
    else rb.goesOn c (.loading batchSize rb.len.toNat count.toNat [])

def step (rb : ReplayBuffer) : ReplayEvent → Option ReplayBuffer
  | .claim c =>
      match rb.calls c with
      | none => some { rb.goesOn c (.claimed rb.writeIdx) with writeIdx := rb.writeIdx + 1 }
      | some _ => none
  | .store c =>
      match rb.calls c with
      | some (.claimed idx) => do
          let slot ← slot? idx rb.slots.length
          return { rb.goesOn c .stored with slots := rb.slots.set slot (some c) }
      | _ => none
  | .sample c batchSize =>
      match rb.calls c with
      | none => rb.beginSample c batchSize
      | some _ => none
  | .sampleInto c =>
      match rb.calls c with
      | some (.sized batchSize) => some (rb.beginSampleInto c batchSize)
      | _ => none
  | .load c draw =>
      match rb.calls c with
      | some (.loading batchSize n count ptrs) =>
          if n ≤ draw then none
          else do
            let ptr ← rb.slots[draw]?
            let ptrs := ptrs ++ [ptr]
            if ptrs.length = count then return rb.goesOn c (.returned batchSize ptrs)
            else return rb.goesOn c (.loading batchSize n count ptrs)
      | _ => none

def run (capacity : Nat) (schedule : List ReplayEvent) : Option ReplayBuffer :=
  schedule.foldlM step (new capacity)

/-- What a returned batch holds: an entry for which no pointer was loaded is left as
`make` has made it. -/
def batch {F : Type} [Zero F] (contents : Nat → Transition F) (batchSize : Nat)
    (ptrs : List (Option Nat)) : List (Transition F) :=
  (List.range batchSize).map fun i => (ptrs[i]?.join.map contents).getD .zero

/-! ## Schedules -/

/-- The pushes in the order in which they claim. -/
def claims (schedule : List ReplayEvent) : List Nat :=
  schedule.filterMap fun
    | .claim c => some c
    | _ => none

/-- The pushes in the order in which they store. -/
def stores (schedule : List ReplayEvent) : List Nat :=
  schedule.filterMap fun
    | .store c => some c
    | _ => none

/-- The slots that a sample loads. -/
def loads (schedule : List ReplayEvent) (c : Nat) : List Nat :=
  schedule.filterMap fun
    | .load c' draw => if c' = c then some draw else none
    | _ => none

/-- The slot of a push, from its place among the claims. -/
def slotOf (capacity : Nat) (order : List Nat) (p : Nat) : Option Nat :=
  slot? (Int64.ofNat (order.idxOf p)) capacity

/-- All loads of the sample are of slots that some push has stored into. -/
def LoadsFilled (capacity : Nat) (schedule : List ReplayEvent) (c : Nat) : Prop :=
  ∀ before draw after, schedule = before ++ .load c draw :: after →
    ∃ p ∈ stores before, slotOf capacity (claims schedule) p = some draw

/-- The push that is the last to claim a slot stores after those that claimed it
before. -/
def StoredInTurn (capacity : Nat) (schedule : List ReplayEvent) : Prop :=
  ∀ j k p q, (claims schedule)[j]? = some p → (claims schedule)[k]? = some q → j < k →
    j % capacity = k % capacity → (claims schedule).length ≤ k + capacity →
    (stores schedule).idxOf p < (stores schedule).idxOf q

/-! ## Right runs -/

/-- Every transition that a sample has returned was passed to a push. -/
def SamplesPushed {F : Type} [Zero F] (contents : Nat → Transition F)
    (schedule : List ReplayEvent) (rb : ReplayBuffer) : Prop :=
  ∀ c batchSize ptrs, rb.calls c = some (.returned batchSize ptrs) →
    ∀ t ∈ batch contents batchSize ptrs, ∃ p ∈ claims schedule, t = contents p

/-- All pushes have completed. -/
def Completed (rb : ReplayBuffer) : Prop := ∀ p idx, rb.calls p ≠ some (.claimed idx)

/-- The slots hold the last transitions in the order of the claims, and the others are
empty. -/
def HoldsLatest {F : Type} (contents : Nat → Transition F) (schedule : List ReplayEvent)
    (rb : ReplayBuffer) : Prop :=
  Latest (rb.slots.map (Option.map contents))
      ((claims schedule).map fun p => some (contents p)) ∧
    ∀ d, (claims schedule).length ≤ d → d < rb.slots.length → rb.slots[d]? = some none

/-! ## One event more -/

section Concat

variable (schedule : List ReplayEvent) (e : ReplayEvent)

theorem claims_concat : claims (schedule ++ [e]) = claims schedule ++ claims [e] :=
  List.filterMap_append

theorem stores_concat : stores (schedule ++ [e]) = stores schedule ++ stores [e] :=
  List.filterMap_append

theorem loads_concat (c : Nat) : loads (schedule ++ [e]) c = loads schedule c ++ loads [e] c :=
  List.filterMap_append

variable {schedule e}

theorem claims_quiet (quiet : claims [e] = []) : claims (schedule ++ [e]) = claims schedule := by
  rw [claims_concat, quiet, List.append_nil]

theorem stores_silent (silent : stores [e] = []) : stores (schedule ++ [e]) = stores schedule := by
  rw [stores_concat, silent, List.append_nil]

theorem mem_claims_concat {c : Nat} (other : c ≠ e.call) :
    c ∈ claims (schedule ++ [e]) ↔ c ∈ claims schedule := by
  rw [claims_concat]
  cases e <;> simp_all [claims, ReplayEvent.call]

theorem mem_stores_concat {c : Nat} (other : c ≠ e.call) :
    c ∈ stores (schedule ++ [e]) ↔ c ∈ stores schedule := by
  rw [stores_concat]
  cases e <;> simp_all [stores, ReplayEvent.call]

theorem loads_concat_other {c : Nat} (other : c ≠ e.call) :
    loads (schedule ++ [e]) c = loads schedule c := by
  rw [loads_concat]
  cases e <;> simp_all [loads, ReplayEvent.call, Ne.symm]

theorem slotOf_concat (capacity : Nat) {p : Nat} (claimed : p ∈ claims schedule) :
    slotOf capacity (claims (schedule ++ [e])) p = slotOf capacity (claims schedule) p := by
  rw [claims_concat, slotOf, slotOf, List.idxOf_append_of_mem claimed]

end Concat

theorem stores_mono {before after : List ReplayEvent} {p : Nat} (member : p ∈ stores before) :
    p ∈ stores (before ++ after) := by
  rw [stores, List.filterMap_append]
  exact List.mem_append_left _ member

theorem loadsFilled_concat {capacity : Nat} {schedule : List ReplayEvent}
    (inside : ∀ p ∈ stores schedule, p ∈ claims schedule) (e : ReplayEvent) (c : Nat) :
    LoadsFilled capacity (schedule ++ [e]) c ↔
      LoadsFilled capacity schedule c ∧ ∀ draw, e = .load c draw →
        ∃ p ∈ stores schedule, slotOf capacity (claims schedule) p = some draw := by
  have same : ∀ before after p, schedule = before ++ after → p ∈ stores before →
      slotOf capacity (claims (schedule ++ [e])) p = slotOf capacity (claims schedule) p := by
    intro before after p split member
    exact slotOf_concat capacity (inside p (split ▸ stores_mono member))
  constructor
  · intro filled
    constructor
    · intro before draw after split
      obtain ⟨p, member, slot⟩ := filled before draw (after ++ [e]) (by rw [split]; simp)
      exact ⟨p, member, (same _ _ p split member).symm.trans slot⟩
    · rintro draw rfl
      obtain ⟨p, member, slot⟩ := filled schedule draw [] rfl
      exact ⟨p, member, (same _ [] p (List.append_nil _).symm member).symm.trans slot⟩
  · rintro ⟨filled, new⟩ before draw after split
    rcases Schedule.concat_eq_append_cons split with ⟨rfl, load, -⟩ | ⟨rest, -, old⟩
    · obtain ⟨p, member, slot⟩ := new draw load.symm
      exact ⟨p, member, (same _ [] p (List.append_nil _).symm member).trans slot⟩
    · obtain ⟨p, member, slot⟩ := filled before draw rest old
      exact ⟨p, member, (same _ _ p old member).trans slot⟩

/-! ## What a step can do -/

section StepCases

variable {rb rb' : ReplayBuffer}

theorem beginSample_cases {c : Nat} {batchSize : Int}
    (begun : rb.beginSample c batchSize = some rb') :
    rb' = rb.goesOn c (.returned 0 []) ∨
      ∃ size : Nat, (size : Int) ≤ rb.len ∧ rb' = rb.goesOn c (.sized size) := by
  unfold beginSample at begun
  by_cases empty : rb.len = 0
  · rw [if_pos empty] at begun
    exact .inl (Option.some.inj begun).symm
  · rw [if_neg empty] at begun
    dsimp only at begun
    generalize number : (if rb.len < batchSize then rb.len else batchSize) = size at begun
    split at begun
    · cases begun
    · refine .inr ⟨size.toNat, ?_, (Option.some.inj begun).symm⟩
      split at number <;> omega

theorem beginSampleInto_cases (rb : ReplayBuffer) (c batchSize : Nat) :
    (rb.beginSampleInto c batchSize = rb.goesOn c (.returned batchSize []) ∧
      (rb.len ≤ 0 ∨ batchSize = 0)) ∨
    ∃ count : Nat, 0 < count ∧ (count : Int) = min rb.len batchSize ∧
      rb.beginSampleInto c batchSize =
        rb.goesOn c (.loading batchSize rb.len.toNat count []) := by
  unfold beginSampleInto
  by_cases empty : rb.len = 0
  · rw [if_pos empty]
    exact .inl ⟨rfl, .inl empty.le⟩
  · rw [if_neg empty]
    dsimp only
    generalize number : (if rb.len < batchSize then rb.len else (batchSize : Int)) = count
    split
    · refine .inl ⟨rfl, ?_⟩
      split at number <;> omega
    · refine .inr ⟨count.toNat, by omega, ?_, rfl⟩
      split at number <;> omega

theorem step_cases {e : ReplayEvent} (stepped : rb.step e = some rb') :
    (∃ c, e = .claim c ∧ rb.calls c = none ∧
      rb' = { rb.goesOn c (.claimed rb.writeIdx) with writeIdx := rb.writeIdx + 1 }) ∨
    (∃ c idx slot, e = .store c ∧ rb.calls c = some (.claimed idx) ∧
      slot? idx rb.slots.length = some slot ∧
      rb' = { rb.goesOn c .stored with slots := rb.slots.set slot (some c) }) ∨
    (∃ c batchSize, e = .sample c batchSize ∧ rb.calls c = none ∧
      rb.beginSample c batchSize = some rb') ∨
    (∃ c batchSize, e = .sampleInto c ∧ rb.calls c = some (.sized batchSize) ∧
      rb' = rb.beginSampleInto c batchSize) ∨
    ∃ c draw batchSize n count ptrs ptr, e = .load c draw ∧
      rb.calls c = some (.loading batchSize n count ptrs) ∧ rb.slots[draw]? = some ptr ∧
      (((ptrs ++ [ptr]).length = count ∧
          rb' = rb.goesOn c (.returned batchSize (ptrs ++ [ptr]))) ∨
        ((ptrs ++ [ptr]).length ≠ count ∧
          rb' = rb.goesOn c (.loading batchSize n count (ptrs ++ [ptr])))) := by
  unfold step at stepped
  cases e with
  | claim c =>
    dsimp only at stepped
    split at stepped
    · rename_i fresh
      exact .inl ⟨c, rfl, fresh, (Option.some.inj stepped).symm⟩
    · cases stepped
  | store c =>
    dsimp only at stepped
    split at stepped
    · rename_i idx waiting
      obtain ⟨slot, found, result⟩ := Option.bind_eq_some_iff.mp stepped
      exact .inr (.inl ⟨c, idx, slot, rfl, waiting, found, (Option.some.inj result).symm⟩)
    · cases stepped
  | sample c batchSize =>
    dsimp only at stepped
    split at stepped
    · rename_i fresh
      exact .inr (.inr (.inl ⟨c, batchSize, rfl, fresh, stepped⟩))
    · cases stepped
  | sampleInto c =>
    dsimp only at stepped
    split at stepped
    · rename_i batchSize sized
      exact .inr (.inr (.inr (.inl
        ⟨c, batchSize, rfl, sized, (Option.some.inj stepped).symm⟩)))
    · cases stepped
  | load c draw =>
    dsimp only at stepped
    split at stepped
    · rename_i batchSize n count ptrs loading
      split at stepped
      · cases stepped
      · obtain ⟨ptr, found, result⟩ := Option.bind_eq_some_iff.mp stepped
        refine .inr (.inr (.inr (.inr
          ⟨c, draw, batchSize, n, count, ptrs, ptr, rfl, loading, found, ?_⟩)))
        split at result <;> rename_i finished
        · exact .inl ⟨finished, (Option.some.inj result).symm⟩
        · exact .inr ⟨finished, (Option.some.inj result).symm⟩
    · cases stepped

end StepCases

/-! ## The invariant -/

/-- The pointers that a sample has loaded. -/
structure Loaded (capacity : Nat) (schedule : List ReplayEvent) (c batchSize : Nat)
    (ptrs : List (Option Nat)) : Prop where
  length : ptrs.length = (loads schedule c).length
  fits : ptrs.length ≤ batchSize
  filled : none ∉ ptrs ↔ LoadsFilled capacity schedule c
  pushed : ∀ p, some p ∈ ptrs → p ∈ claims schedule

/-- The counter has not wrapped around. -/
def Few (schedule : List ReplayEvent) : Prop := (claims schedule).length < 2 ^ 63

/-- What the schedule says about a call.  As long as the counter has not wrapped around,
the loop of a sample has a turn for each entry of the batch. -/
def CallInv (capacity : Nat) (schedule : List ReplayEvent) (c : Nat) :
    Option ReplayCall → Prop
  | none => c ∉ claims schedule ∧ loads schedule c = []
  | some (.claimed idx) => c ∈ claims schedule ∧ loads schedule c = [] ∧ c ∉ stores schedule ∧
      idx = Int64.ofNat ((claims schedule).idxOf c)
  | some .stored => c ∈ claims schedule ∧ loads schedule c = [] ∧ c ∈ stores schedule
  | some (.sized batchSize) => (c ∉ claims schedule ∧ loads schedule c = []) ∧
      (Few schedule → batchSize ≤ min capacity (claims schedule).length)
  | some (.loading batchSize _ count ptrs) => c ∉ claims schedule ∧
      ptrs.length < count ∧ count ≤ batchSize ∧ (Few schedule → count = batchSize) ∧
      Loaded capacity schedule c batchSize ptrs
  | some (.returned batchSize ptrs) => c ∉ claims schedule ∧
      (Few schedule → ptrs.length = batchSize) ∧ Loaded capacity schedule c batchSize ptrs

/-- The push that stored last into a slot. -/
def writer (capacity : Nat) (schedule : List ReplayEvent) (d : Nat) : Option Nat :=
  ((stores schedule).filter fun p => slotOf capacity (claims schedule) p = some d).getLast?

structure Inv (capacity : Nat) (schedule : List ReplayEvent) (rb : ReplayBuffer) : Prop where
  length : rb.slots.length = capacity
  counted : rb.writeIdx = Int64.ofNat (claims schedule).length
  claims_nodup : (claims schedule).Nodup
  stores_nodup : (stores schedule).Nodup
  claimed : ∀ p ∈ stores schedule, p ∈ claims schedule
  valid : ∀ p ∈ stores schedule, (slotOf capacity (claims schedule) p).isSome
  slots : ∀ d < capacity, rb.slots[d]? = some (writer capacity schedule d)
  calls : ∀ c, CallInv capacity schedule c (rb.calls c)

theorem inv_new (capacity : Nat) : Inv capacity [] (new capacity) where
  length := List.length_replicate
  counted := rfl
  claims_nodup := List.nodup_nil
  stores_nodup := List.nodup_nil
  claimed := List.forall_mem_nil _
  valid := List.forall_mem_nil _
  slots d inside := by
    rw [new, List.getElem?_replicate_of_lt inside]
    rfl
  calls c := ⟨List.not_mem_nil, rfl⟩

section Step

variable {capacity : Nat} {schedule : List ReplayEvent} {e : ReplayEvent}
  {rb rb' : ReplayBuffer}

variable {c : Nat}

theorem CallInv.other (inside : ∀ p ∈ stores schedule, p ∈ claims schedule) (other : c ≠ e.call)
    {call : Option ReplayCall} (inv : CallInv capacity schedule c call) :
    CallInv capacity (schedule ++ [e]) c call := by
  have claims' : c ∈ claims (schedule ++ [e]) ↔ c ∈ claims schedule := mem_claims_concat other
  have loads' : loads (schedule ++ [e]) c = loads schedule c := loads_concat_other other
  have more : (claims schedule).length ≤ (claims (schedule ++ [e])).length := by
    rw [claims_concat, List.length_append]
    exact Nat.le_add_right _ _
  have few : Few (schedule ++ [e]) → Few schedule := Nat.lt_of_le_of_lt more
  have loaded : ∀ {batchSize ptrs}, Loaded capacity schedule c batchSize ptrs →
      Loaded capacity (schedule ++ [e]) c batchSize ptrs := by
    rintro batchSize ptrs ⟨length, fits, filled, pushed⟩
    refine ⟨by rw [loads', length], fits, ?_, ?_⟩
    · rw [filled, loadsFilled_concat inside e c]
      refine (and_iff_left ?_).symm
      rintro draw rfl
      exact absurd rfl other
    · intro p loaded
      rw [claims_concat]
      exact List.mem_append_left _ (pushed p loaded)
  match call, inv with
  | none, inv => exact ⟨claims'.not.mpr inv.1, loads'.trans inv.2⟩
  | some (.claimed idx), ⟨mine, idle, waiting, index⟩ =>
    refine ⟨claims'.mpr mine, loads'.trans idle, (mem_stores_concat other).not.mpr waiting, ?_⟩
    rw [claims_concat, List.idxOf_append_of_mem mine, index]
  | some .stored, ⟨mine, idle, done⟩ =>
    exact ⟨claims'.mpr mine, loads'.trans idle, (mem_stores_concat other).mpr done⟩
  | some (.sized _), ⟨idle, fits⟩ =>
    exact ⟨⟨claims'.not.mpr idle.1, loads'.trans idle.2⟩,
      fun small => (fits (few small)).trans (min_le_min_left capacity more)⟩
  | some (.loading _ _ _ _), ⟨sample, turns, most, whole, inv⟩ =>
    exact ⟨claims'.not.mpr sample, turns, most, whole ∘ few, loaded inv⟩
  | some (.returned _ _), ⟨sample, whole, inv⟩ =>
    exact ⟨claims'.not.mpr sample, whole ∘ few, loaded inv⟩

theorem Inv.calls_update (inv : Inv capacity schedule rb) (mine : e.call = c) {call : ReplayCall}
    (own : CallInv capacity (schedule ++ [e]) c (some call)) (c' : Nat) :
    CallInv capacity (schedule ++ [e]) c' (Function.update rb.calls c (some call) c') := by
  by_cases same : c' = c
  · rw [same, Function.update_self]
    exact own
  · rw [Function.update_of_ne same]
    exact (inv.calls c').other inv.claimed (mine ▸ same)

theorem Inv.writer_concat (inv : Inv capacity schedule rb) (silent : stores [e] = []) (d : Nat) :
    writer capacity (schedule ++ [e]) d = writer capacity schedule d := by
  unfold writer
  rw [stores_silent silent]
  congr 1
  apply List.filter_congr
  intro p member
  rw [slotOf_concat capacity (inv.claimed p member)]

theorem Inv.claim (inv : Inv capacity schedule rb) (fresh : rb.calls c = none) :
    Inv capacity (schedule ++ [.claim c])
      { rb.goesOn c (.claimed rb.writeIdx) with writeIdx := rb.writeIdx + 1 } := by
  have own := inv.calls c
  rw [fresh] at own
  have claims' : claims (schedule ++ [.claim c]) = claims schedule ++ [c] := claims_concat _ _
  have stores' : stores (schedule ++ [.claim c]) = stores schedule := stores_silent rfl
  have waiting : c ∉ stores schedule := fun stored => own.1 (inv.claimed c stored)
  have own' : CallInv capacity (schedule ++ [.claim c]) c (some (.claimed rb.writeIdx)) := by
    refine ⟨by rw [claims']; simp, ?_, by rw [stores']; exact waiting, ?_⟩
    · rw [loads_concat, own.2]
      rfl
    · rw [claims', List.idxOf_append_of_notMem own.1]
      simpa using inv.counted
  refine ⟨inv.length, ?_, ?_, ?_, ?_, ?_, ?_, inv.calls_update rfl own'⟩
  · rw [claims', List.length_append, List.length_singleton, ofNat_succ, ← inv.counted]
  · rw [claims']
    exact List.nodup_append.mpr ⟨inv.claims_nodup, List.nodup_singleton c, by
      rintro p member q new rfl
      exact own.1 (List.mem_singleton.mp new ▸ member)⟩
  · rw [stores']
    exact inv.stores_nodup
  · rw [stores', claims']
    exact fun p member => List.mem_append_left _ (inv.claimed p member)
  · rw [stores']
    intro p member
    rw [slotOf_concat capacity (inv.claimed p member)]
    exact inv.valid p member
  · intro d inside
    rw [inv.writer_concat rfl]
    exact inv.slots d inside

theorem Inv.store (inv : Inv capacity schedule rb) {idx : Int64} {slot : Nat}
    (waiting : rb.calls c = some (.claimed idx)) (found : slot? idx rb.slots.length = some slot) :
    Inv capacity (schedule ++ [.store c])
      { rb.goesOn c .stored with slots := rb.slots.set slot (some c) } := by
  obtain ⟨mine, idle, pending, index⟩ : CallInv capacity schedule c (some (.claimed idx)) :=
    waiting ▸ inv.calls c
  have claims' : claims (schedule ++ [.store c]) = claims schedule := claims_quiet rfl
  have stores' : stores (schedule ++ [.store c]) = stores schedule ++ [c] := stores_concat _ _
  have own : slotOf capacity (claims schedule) c = some slot := by
    rw [slotOf, ← index, ← inv.length]
    exact found
  have inside : slot < rb.slots.length := lt_of_slot? found
  have each : ∀ {good : Nat → Prop}, (∀ p ∈ stores schedule, good p) → good c →
      ∀ p ∈ stores (schedule ++ [.store c]), good p := by
    intro good old new p member
    rw [stores'] at member
    rcases List.mem_append.mp member with before | last
    · exact old p before
    · rw [List.mem_singleton.mp last]
      exact new
  have own' : CallInv capacity (schedule ++ [.store c]) c (some .stored) := by
    refine ⟨by rw [claims']; exact mine, ?_, by rw [stores']; simp⟩
    rw [loads_concat, idle]
    rfl
  refine ⟨by rw [List.length_set]; exact inv.length, ?_, ?_, ?_, ?_, ?_, ?_,
    inv.calls_update rfl own'⟩
  · rw [claims']
    exact inv.counted
  · rw [claims']
    exact inv.claims_nodup
  · rw [stores']
    exact List.nodup_append.mpr ⟨inv.stores_nodup, List.nodup_singleton c, by
      rintro p member q new rfl
      exact pending (List.mem_singleton.mp new ▸ member)⟩
  · rw [claims']
    exact each inv.claimed mine
  · rw [claims']
    exact each inv.valid (by rw [own]; rfl)
  · intro d valid
    unfold writer
    rw [claims', stores', List.filter_append]
    by_cases here : slot = d
    · rw [← here, List.getElem?_set_self inside,
        List.filter_cons_of_pos (by simpa using own), List.filter_nil, List.getLast?_concat]
    · rw [List.getElem?_set_ne here, List.filter_cons_of_neg (by simp [own, here]),
        List.filter_nil, List.append_nil]
      exact inv.slots d valid

theorem Inv.goesOn (inv : Inv capacity schedule rb) (quiet : claims [e] = [])
    (silent : stores [e] = []) (mine : e.call = c) {call : ReplayCall}
    (own : CallInv capacity (schedule ++ [e]) c (some call)) :
    Inv capacity (schedule ++ [e]) (rb.goesOn c call) := by
  have claims' : claims (schedule ++ [e]) = claims schedule := claims_quiet quiet
  have stores' : stores (schedule ++ [e]) = stores schedule := stores_silent silent
  refine ⟨inv.length, ?_, ?_, ?_, ?_, ?_, ?_, inv.calls_update mine own⟩
  · rw [claims']
    exact inv.counted
  · rw [claims']
    exact inv.claims_nodup
  · rw [stores']
    exact inv.stores_nodup
  · rw [claims', stores']
    exact inv.claimed
  · rw [claims', stores']
    exact inv.valid
  · intro d inside
    rw [inv.writer_concat silent]
    exact inv.slots d inside

omit e in
theorem loaded_nil (idle : loads schedule c = []) (batchSize : Nat) :
    Loaded capacity schedule c batchSize [] where
  length := by rw [idle]; rfl
  fits := Nat.zero_le _
  filled := by
    refine iff_of_true List.not_mem_nil ?_
    intro before draw after split
    have some_load : draw ∈ loads schedule c := by
      rw [split, loads, List.filterMap_append, List.filterMap_cons]
      simp
    rw [idle] at some_load
    cases some_load
  pushed := fun _ impossible => nomatch impossible

theorem writer_ne_none_iff (capacity : Nat) (schedule : List ReplayEvent) (d : Nat) :
    writer capacity schedule d ≠ none ↔
      ∃ p ∈ stores schedule, slotOf capacity (claims schedule) p = some d := by
  unfold writer
  rw [ne_eq, List.getLast?_eq_none_iff, List.filter_eq_nil_iff]
  simp

theorem Inv.loaded (inv : Inv capacity schedule rb) {batchSize draw : Nat}
    {ptrs : List (Option Nat)} {ptr : Option Nat}
    (loaded : Loaded capacity schedule c batchSize ptrs) (room : ptrs.length < batchSize)
    (found : rb.slots[draw]? = some ptr) :
    Loaded capacity (schedule ++ [.load c draw]) c batchSize (ptrs ++ [ptr]) := by
  have inside : draw < capacity := by
    rw [← inv.length]
    exact (List.getElem?_eq_some_iff.mp found).1
  have last : ptr = writer capacity schedule draw :=
    Option.some.inj (found.symm.trans (inv.slots draw inside))
  have claims' : claims (schedule ++ [.load c draw]) = claims schedule := claims_quiet rfl
  refine ⟨?_, ?_, ?_, ?_⟩
  · rw [loads_concat, List.length_append, List.length_append, loaded.length]
    simp [loads]
  · rw [List.length_append, List.length_singleton]
    exact room
  · have new : (∀ draw', ReplayEvent.load c draw = .load c draw' →
        ∃ p ∈ stores schedule, slotOf capacity (claims schedule) p = some draw') ↔ none ≠ ptr := by
      rw [last, ne_comm, writer_ne_none_iff]
      constructor
      · exact fun each => each draw rfl
      · rintro filled draw' same
        cases same
        exact filled
    rw [loadsFilled_concat inv.claimed, ← loaded.filled, new, List.mem_append,
      List.mem_singleton, not_or]
  · intro p member
    rw [claims']
    rcases List.mem_append.mp member with old | new
    · exact loaded.pushed p old
    · rw [List.mem_singleton, last] at new
      exact inv.claimed p (List.mem_of_mem_filter (List.mem_of_getLast? new.symm))

theorem Inv.len_eq (inv : Inv capacity schedule rb) (few : Few schedule) :
    rb.len = (min capacity (claims schedule).length : Nat) := by
  rw [len, inv.length, inv.counted, Int64.toInt_ofNat_of_lt few]
  split <;> omega

theorem idle_concat (quiet : claims [e] = []) (still : loads [e] c = [])
    (idle : c ∉ claims schedule ∧ loads schedule c = []) :
    c ∉ claims (schedule ++ [e]) ∧ loads (schedule ++ [e]) c = [] := by
  rw [claims_concat, loads_concat, quiet, still, List.append_nil, List.append_nil]
  exact idle

theorem Inv.beginSample (inv : Inv capacity schedule rb) {batchSize : Int}
    (fresh : rb.calls c = none) (begun : rb.beginSample c batchSize = some rb') :
    Inv capacity (schedule ++ [.sample c batchSize]) rb' := by
  have old : CallInv capacity schedule c none := fresh ▸ inv.calls c
  have quiet : claims (schedule ++ [.sample c batchSize]) = claims schedule := claims_quiet rfl
  have idle := @idle_concat schedule (.sample c batchSize) c rfl rfl old
  rcases beginSample_cases begun with rfl | ⟨size, fits, rfl⟩
  · have own : CallInv capacity (schedule ++ [.sample c batchSize]) c (some (.returned 0 [])) :=
      ⟨idle.1, fun _ => rfl, loaded_nil idle.2 0⟩
    exact inv.goesOn rfl rfl rfl own
  · have own : CallInv capacity (schedule ++ [.sample c batchSize]) c (some (.sized size)) := by
      refine ⟨idle, fun few => ?_⟩
      rw [Few, quiet] at few
      rw [inv.len_eq few] at fits
      rw [quiet]
      exact_mod_cast fits
    exact inv.goesOn rfl rfl rfl own

theorem Inv.beginSampleInto (inv : Inv capacity schedule rb) {batchSize : Nat}
    (sized : rb.calls c = some (.sized batchSize)) :
    Inv capacity (schedule ++ [.sampleInto c]) (rb.beginSampleInto c batchSize) := by
  obtain ⟨old, fits⟩ : CallInv capacity schedule c (some (.sized batchSize)) :=
    sized ▸ inv.calls c
  have idle := @idle_concat schedule (.sampleInto c) c rfl rfl old
  have full : Few (schedule ++ [.sampleInto c]) → (batchSize : Int) ≤ rb.len := by
    intro few
    rw [Few, claims_quiet rfl] at few
    rw [inv.len_eq few]
    exact_mod_cast fits few
  rcases rb.beginSampleInto_cases c batchSize with ⟨begun, none⟩ | ⟨count, positive, least, begun⟩
  · have own : CallInv capacity (schedule ++ [.sampleInto c]) c
        (some (.returned batchSize [])) :=
      ⟨idle.1, fun few => show 0 = batchSize by have := full few; omega,
        loaded_nil idle.2 batchSize⟩
    rw [begun]
    exact inv.goesOn rfl rfl rfl own
  · have own : CallInv capacity (schedule ++ [.sampleInto c]) c
        (some (.loading batchSize rb.len.toNat count [])) :=
      ⟨idle.1, positive, by omega, fun few => by have := full few; omega,
        loaded_nil idle.2 batchSize⟩
    rw [begun]
    exact inv.goesOn rfl rfl rfl own

theorem Inv.step (inv : Inv capacity schedule rb) (stepped : rb.step e = some rb') :
    Inv capacity (schedule ++ [e]) rb' := by
  rcases step_cases stepped with ⟨c, rfl, fresh, rfl⟩ | ⟨c, idx, slot, rfl, waiting, found, rfl⟩ |
    ⟨c, batchSize, rfl, fresh, begun⟩ | ⟨c, batchSize, rfl, sized, rfl⟩ |
    ⟨c, draw, batchSize, n, count, ptrs, ptr, rfl, loading, found, result⟩
  · exact inv.claim fresh
  · exact inv.store waiting found
  · exact inv.beginSample fresh begun
  · exact inv.beginSampleInto sized
  · obtain ⟨sample, more, most, whole, loaded⟩ :
      CallInv capacity schedule c (some (.loading batchSize n count ptrs)) := loading ▸ inv.calls c
    have quiet : claims (schedule ++ [.load c draw]) = claims schedule := claims_quiet rfl
    have sample' : c ∉ claims (schedule ++ [.load c draw]) := by rwa [quiet]
    have whole' : Few (schedule ++ [.load c draw]) → count = batchSize := by
      rwa [Few, quiet]
    have loaded' := inv.loaded loaded (by omega) found
    rcases result with ⟨finished, rfl⟩ | ⟨unfinished, rfl⟩
    · have own : CallInv capacity (schedule ++ [.load c draw]) c
          (some (.returned batchSize (ptrs ++ [ptr]))) :=
        ⟨sample', fun few => finished.trans (whole' few), loaded'⟩
      exact inv.goesOn rfl rfl rfl own
    · have own : CallInv capacity (schedule ++ [.load c draw]) c
          (some (.loading batchSize n count (ptrs ++ [ptr]))) := by
        rw [List.length_append, List.length_singleton] at unfinished
        refine ⟨sample', ?_, most, whole', loaded'⟩
        rw [List.length_append, List.length_singleton]
        omega
      exact inv.goesOn rfl rfl rfl own

end Step

theorem run_concat (capacity : Nat) (schedule : List ReplayEvent) (e : ReplayEvent) :
    run capacity (schedule ++ [e]) = (run capacity schedule).bind fun rb => rb.step e := by
  unfold run
  rw [List.foldlM_append]
  congr 1
  funext rb
  simp

theorem inv_run {capacity : Nat} (schedule : List ReplayEvent) :
    ∀ {rb : ReplayBuffer}, run capacity schedule = some rb → Inv capacity schedule rb := by
  induction schedule using List.reverseRecOn with
  | nil =>
    intro rb ran
    cases ran
    exact inv_new capacity
  | append_singleton schedule e ih =>
    intro rb' ran
    rw [run_concat] at ran
    obtain ⟨rb, before, stepped⟩ := Option.bind_eq_some_iff.mp ran
    exact (ih before).step stepped

/-! ## Completed pushes -/

section Completed

variable {capacity : Nat} {schedule : List ReplayEvent} {rb : ReplayBuffer}

theorem CallInv.waiting_or_stored {c : Nat} {call : Option ReplayCall}
    (inv : CallInv capacity schedule c call) (claimed : c ∈ claims schedule) :
    (∃ idx, call = some (.claimed idx)) ∨ c ∈ stores schedule := by
  match call, inv with
  | none, inv => exact absurd claimed inv.1
  | some (.claimed idx), _ => exact .inl ⟨idx, rfl⟩
  | some .stored, inv => exact .inr inv.2.2
  | some (.sized _), inv => exact absurd claimed inv.1.1
  | some (.loading _ _ _ _), inv => exact absurd claimed inv.1
  | some (.returned _ _), inv => exact absurd claimed inv.1

theorem Inv.mem_stores (inv : Inv capacity schedule rb) (completed : Completed rb) {p : Nat}
    (claimed : p ∈ claims schedule) : p ∈ stores schedule := by
  rcases (inv.calls p).waiting_or_stored claimed with ⟨idx, waiting⟩ | stored
  · exact absurd waiting (completed p idx)
  · exact stored

theorem Inv.slotOf_claim (inv : Inv capacity schedule rb) (completed : Completed rb) {k p : Nat}
    (here : (claims schedule)[k]? = some p) :
    slotOf capacity (claims schedule) p = some (k % capacity) := by
  have place : ∀ {j q}, (claims schedule)[j]? = some q → (claims schedule).idxOf q = j := by
    intro j q there
    obtain ⟨inside, rfl⟩ := List.getElem?_eq_some_iff.mp there
    exact inv.claims_nodup.idxOf_getElem j inside
  have valid : ∀ j < (claims schedule).length, (slot? (Int64.ofNat j) capacity).isSome := by
    intro j inside
    have there := List.getElem?_eq_getElem inside
    have found := inv.valid _ (inv.mem_stores completed (List.mem_of_getElem? there))
    rwa [slotOf, place there] at found
  rw [slotOf, place here]
  exact slot?_in_turn valid k (List.getElem?_eq_some_iff.mp here).1

theorem Inv.slotOf_iff (inv : Inv capacity schedule rb) (completed : Completed rb) {p d : Nat}
    (stored : p ∈ stores schedule) :
    slotOf capacity (claims schedule) p = some d ↔
      ∃ j, (claims schedule)[j]? = some p ∧ j % capacity = d := by
  obtain ⟨j, here⟩ := List.mem_iff_getElem?.mp (inv.claimed p stored)
  constructor
  · intro slot
    exact ⟨j, here, Option.some.inj ((inv.slotOf_claim completed here).symm.trans slot)⟩
  · rintro ⟨j', here', rfl⟩
    exact inv.slotOf_claim completed here'

/-- The slot of one of the last claims has the pointer of that push when all others
that claimed the slot have stored before it. -/
theorem Inv.writer_eq_iff (inv : Inv capacity schedule rb) (completed : Completed rb) {k q : Nat}
    (here : (claims schedule)[k]? = some q) (recent : (claims schedule).length ≤ k + capacity) :
    writer capacity schedule (k % capacity) = some q ↔
      ∀ j p, (claims schedule)[j]? = some p → j < k → j % capacity = k % capacity →
        (stores schedule).idxOf p < (stores schedule).idxOf q := by
  have stored := inv.mem_stores completed (List.mem_of_getElem? here)
  unfold writer
  rw [Schedule.getLast?_filter_eq_iff _ inv.stores_nodup stored
    (decide_eq_true (inv.slotOf_claim completed here))]
  constructor
  · intro before j p there earlier same
    refine before p (inv.mem_stores completed (List.mem_of_getElem? there)) ?_ ?_
    · rw [inv.slotOf_claim completed there, same]
      exact decide_eq_true rfl
    · rintro rfl
      have twice := (List.getElem?_inj (List.getElem?_eq_some_iff.mp there).1
        inv.claims_nodup).mp (there.trans here.symm)
      omega
  · intro before p stored' slot other
    obtain ⟨j, there, same⟩ := (inv.slotOf_iff completed stored').mp (of_decide_eq_true slot)
    refine before j p there ?_ same
    by_contra late
    have different : j ≠ k := by
      rintro rfl
      exact other (Option.some.inj (there.symm.trans here))
    have inside := (List.getElem?_eq_some_iff.mp there).1
    -- the next claim of the slot of `k` would be a whole round later
    exact mod_ne (by omega) (by omega) same.symm

theorem Inv.writer_eq_none (inv : Inv capacity schedule rb) (completed : Completed rb) {d : Nat}
    (unclaimed : (claims schedule).length ≤ d) (inside : d < capacity) :
    writer capacity schedule d = none := by
  by_contra filled
  obtain ⟨p, stored, slot⟩ := (writer_ne_none_iff capacity schedule d).mp filled
  obtain ⟨j, there, same⟩ := (inv.slotOf_iff completed stored).mp slot
  have valid := (List.getElem?_eq_some_iff.mp there).1
  rw [Nat.mod_eq_of_lt (by omega)] at same
  omega

end Completed

/-! ## When a run is right -/

section Right

variable {F : Type} [Zero F] {capacity : Nat} {schedule : List ReplayEvent} {rb : ReplayBuffer}

/-- A transition by which the push can be told, and which is not the zero one. -/
def mark (p : Nat) : Transition F := ⟨List.replicate (p + 1) 0, [], 0, [], false⟩

theorem mark_injective : Function.Injective (mark : Nat → Transition F) := by
  intro p q same
  have lengths := congrArg (fun t : Transition F => t.state.length) same
  simpa [mark] using lengths

theorem mark_ne_zero (p : Nat) : (mark p : Transition F) ≠ .zero := by
  intro same
  have lengths := congrArg (fun t : Transition F => t.state.length) same
  simp [mark, Transition.zero] at lengths

theorem Loaded.batch_pushed {c batchSize : Nat} {ptrs : List (Option Nat)}
    (loaded : Loaded capacity schedule c batchSize ptrs)
    (all : (loads schedule c).length = batchSize) (filled : LoadsFilled capacity schedule c)
    (contents : Nat → Transition F) :
    ∀ t ∈ batch contents batchSize ptrs, ∃ p ∈ claims schedule, t = contents p := by
  intro t member
  obtain ⟨i, inside, rfl⟩ := List.mem_map.mp member
  have valid : i < ptrs.length := by
    rw [loaded.length, all]
    exact List.mem_range.mp inside
  have entry := List.getElem_mem valid
  rw [List.getElem?_eq_getElem valid, Option.join_some]
  match found : ptrs[i] with
  | none => exact absurd (found ▸ entry) (loaded.filled.mpr filled)
  | some p => exact ⟨p, loaded.pushed p (found ▸ entry), rfl⟩

theorem Loaded.filled_of_marked {c batchSize : Nat} {ptrs : List (Option Nat)}
    (loaded : Loaded capacity schedule c batchSize ptrs)
    (pushed : ∀ t ∈ batch (mark : Nat → Transition F) batchSize ptrs,
      ∃ p ∈ claims schedule, t = mark p) :
    (loads schedule c).length = batchSize ∧ LoadsFilled capacity schedule c := by
  have entry : ∀ i < batchSize, ptrs[i]?.join ≠ none := by
    intro i inside empty
    have member : (Transition.zero : Transition F) ∈ batch mark batchSize ptrs :=
      List.mem_map.mpr ⟨i, List.mem_range.mpr inside, by rw [empty]; rfl⟩
    obtain ⟨p, -, same⟩ := pushed _ member
    exact mark_ne_zero p same.symm
  have all : ptrs.length = batchSize := by
    by_contra short
    have fits := loaded.fits
    refine entry ptrs.length (by omega) ?_
    rw [List.getElem?_eq_none le_rfl]
    rfl
  refine ⟨by rw [← loaded.length, all], loaded.filled.mp ?_⟩
  intro member
  obtain ⟨i, found⟩ := List.mem_iff_getElem?.mp member
  refine entry i (all ▸ (List.getElem?_eq_some_iff.mp found).1) ?_
  rw [found]
  rfl

omit [Zero F] in
theorem Inv.getElem?_contents (inv : Inv capacity schedule rb) (contents : Nat → Transition F)
    {d : Nat} (inside : d < capacity) :
    (rb.slots.map (Option.map contents))[d]? =
      some ((writer capacity schedule d).map contents) := by
  rw [List.getElem?_map, inv.slots d inside]
  rfl

/-- A schedule is right, whatever is pushed, exactly when every entry of a returned
batch was loaded from a slot that a store had filled and, once all pushes have
completed, each slot was stored into last by the push that claimed it last. -/
theorem right_iff_filled_and_in_turn (ran : run capacity schedule = some rb) :
    (∀ contents : Nat → Transition F, SamplesPushed contents schedule rb ∧
      (Completed rb → HoldsLatest contents schedule rb)) ↔
    (∀ c batchSize ptrs, rb.calls c = some (.returned batchSize ptrs) →
      (loads schedule c).length = batchSize ∧ LoadsFilled capacity schedule c) ∧
    (Completed rb → StoredInTurn capacity schedule) := by
  have inv := inv_run schedule ran
  have loaded : ∀ {c batchSize ptrs}, rb.calls c = some (.returned batchSize ptrs) →
      Loaded capacity schedule c batchSize ptrs := by
    intro c batchSize ptrs returned
    have own := inv.calls c
    rw [returned] at own
    exact own.2.2
  have slot_lt : ∀ {k : Nat}, (claims schedule).length ≤ k + capacity →
      k < (claims schedule).length → k % capacity < capacity :=
    fun recent inside => Nat.mod_lt _ (by omega)
  constructor
  · intro right
    obtain ⟨pushed, held⟩ := right mark
    refine ⟨fun c batchSize ptrs returned =>
      (loaded returned).filled_of_marked (pushed c batchSize ptrs returned), ?_⟩
    intro completed j k p q earlier here less same recent
    have inside := (List.getElem?_eq_some_iff.mp here).1
    have latest := latest_iff.mp (held completed).1 k
      (by simpa [inv.length] using recent) (by simpa using inside)
    rw [List.length_map, inv.length, inv.getElem?_contents mark (slot_lt recent inside),
      List.getElem?_map, here] at latest
    obtain ⟨p', writes, marked⟩ := Option.map_eq_some_iff.mp (Option.some.inj latest)
    rw [mark_injective marked] at writes
    exact (inv.writer_eq_iff completed here recent).mp writes j p earlier less same
  · rintro ⟨filled, in_turn⟩ contents
    constructor
    · intro c batchSize ptrs returned
      obtain ⟨all, each⟩ := filled c batchSize ptrs returned
      exact (loaded returned).batch_pushed all each contents
    · intro completed
      constructor
      · rw [latest_iff]
        intro k recent inside
        rw [List.length_map, List.length_map, inv.length] at recent
        rw [List.length_map] at inside
        have here := List.getElem?_eq_getElem inside
        have writes := (inv.writer_eq_iff completed here recent).mpr
          fun j p earlier less same => in_turn completed j k p _ earlier here less same recent
        rw [List.length_map, inv.length, inv.getElem?_contents contents (slot_lt recent inside),
          writes, List.getElem?_map, here]
        rfl
      · intro d unclaimed inside
        rw [inv.length] at inside
        rw [inv.slots d inside, inv.writer_eq_none completed unclaimed inside]

end Right

/-- Two pushes into one slot, one after the other, and a sample of it. -/
theorem right_one_after_the_other :
    ∃ rb, run 1 [.claim 0, .store 0, .claim 1, .store 1, .sample 2 1, .sampleInto 2, .load 2 0] =
        some rb ∧
      ∀ contents : Nat → Transition Int,
        SamplesPushed contents
          [.claim 0, .store 0, .claim 1, .store 1, .sample 2 1, .sampleInto 2, .load 2 0] rb ∧
        (Completed rb → HoldsLatest contents
          [.claim 0, .store 0, .claim 1, .store 1, .sample 2 1, .sampleInto 2, .load 2 0] rb) := by
  refine ⟨_, rfl, (@right_iff_filled_and_in_turn Int _ 1 _ _ rfl).mpr ⟨?_, ?_⟩⟩
  · intro c batchSize ptrs returned
    have two : c = 2 ∧ batchSize = 1 := by
      match c, returned with
      | 0, returned => cases returned
      | 1, returned => cases returned
      | 2, returned => cases returned; exact ⟨rfl, rfl⟩
      | c + 3, returned => cases returned
    obtain ⟨rfl, rfl⟩ := two
    refine ⟨rfl, ?_⟩
    intro before draw after split
    have split' : [.claim 0, .store 0, .claim 1, .store 1, .sample 2 1, .sampleInto 2] ++
        [ReplayEvent.load 2 0] = before ++ .load 2 draw :: after := split
    rcases Schedule.concat_eq_append_cons split' with ⟨rfl, same, -⟩ | ⟨rest, -, old⟩
    · cases same
      exact ⟨1, by decide, by decide⟩
    · have member : ReplayEvent.load 2 draw ∈ before ++ .load 2 draw :: rest := by simp
      rw [← old] at member
      simp at member
  · intro _ j k p q earlier here less _ _
    match j, k, earlier, here with
    | 0, 1, earlier, here =>
        cases earlier
        cases here
        decide
    | 0, k + 2, _, here => cases here
    | j + 1, k + 2, _, here => cases here

/-- A sample between the claim and the store of the first push returns the zero
transition, which nobody has pushed; and when two pushes into the same slot store in
the order opposite to their claims, the older transition stays. -/
theorem empty_and_stale_slots :
    (∃ rb, run 1 [.claim 0, .sample 1 1, .sampleInto 1, .load 1 0] = some rb ∧
      ¬ SamplesPushed (fun _ => (⟨[1], [0], 1, [2], false⟩ : Transition Int))
        [.claim 0, .sample 1 1, .sampleInto 1, .load 1 0] rb) ∧
    ∃ rb, run 1 [.claim 0, .claim 1, .store 1, .store 0] = some rb ∧ Completed rb ∧
      ¬ HoldsLatest (fun p => (⟨[p], [0], p, [p], false⟩ : Transition Int))
        [.claim 0, .claim 1, .store 1, .store 0] rb := by
  refine ⟨⟨_, rfl, ?_⟩, ⟨_, rfl, ?_, ?_⟩⟩
  · intro pushed
    obtain ⟨p, -, same⟩ := pushed 1 1 [none] rfl .zero (by decide)
    cases same
  · intro p idx
    simp only [goesOn, new, Function.update_apply]
    split
    · exact nofun
    · split <;> exact nofun
  · rintro ⟨latest, -⟩
    have stale := latest_iff.mp latest 1 (by decide) (by decide)
    revert stale
    decide

/-! ## Pushes that do not fall behind -/

section Pace

variable {capacity : Nat} {schedule : List ReplayEvent} {rb : ReplayBuffer}

theorem Inv.store_possible (inv : Inv capacity schedule rb) (positive : 0 < capacity)
    (few : (claims schedule).length ≤ 2 ^ 63) {c : Nat} {idx : Int64}
    (waiting : rb.calls c = some (.claimed idx)) : (rb.step (.store c)).isSome := by
  obtain ⟨mine, -, -, index⟩ : CallInv capacity schedule c (some (.claimed idx)) :=
    waiting ▸ inv.calls c
  have place := List.idxOf_lt_length_iff.mpr mine
  have slot := slot?_of_lt (show (claims schedule).idxOf c < 2 ^ 63 by omega) positive
  rw [← index, ← inv.length] at slot
  simp [ReplayBuffer.step, waiting, slot]

theorem length_loads (ran : run capacity schedule = some rb) (few : Few schedule)
    {c batchSize : Nat} {ptrs : List (Option Nat)}
    (returned : rb.calls c = some (.returned batchSize ptrs)) :
    (loads schedule c).length = batchSize := by
  obtain ⟨-, whole, loaded⟩ : CallInv capacity schedule c (some (.returned batchSize ptrs)) :=
    returned ▸ (inv_run schedule ran).calls c
  exact loaded.length.symm.trans (whole few)

theorem run_append_left {before after : List ReplayEvent}
    (ran : run capacity (before ++ after) = some rb) : ∃ rb', run capacity before = some rb' := by
  unfold run at ran
  rw [List.foldlM_append] at ran
  obtain ⟨rb', first, -⟩ := Option.bind_eq_some_iff.mp ran
  exact ⟨rb', first⟩

theorem exists_claim : ∀ {k q : Nat},
    (claims schedule)[k]? = some q →
    ∃ before after, schedule = before ++ .claim q :: after ∧ (claims before).length = k := by
  induction schedule using List.reverseRecOn with
  | nil =>
    intro k q here
    cases here
  | append_singleton schedule e ih =>
    intro k q here
    rcases Nat.lt_or_ge k (claims schedule).length with old | new
    · rw [claims_concat, List.getElem?_append_left old] at here
      obtain ⟨before, after, rfl, length⟩ := ih here
      exact ⟨before, after ++ [e], by simp, length⟩
    · rw [claims_concat, List.getElem?_append_right new] at here
      have last : e = .claim q ∧ k - (claims schedule).length = 0 := by
        have inside := (List.getElem?_eq_some_iff.mp here).1
        cases e <;> simp_all [claims]
      obtain ⟨rfl, distance⟩ := last
      exact ⟨schedule, [], rfl, by omega⟩

/-- While no push claims before the one a whole round ahead of it has stored, the
stores into a slot come in the order of the claims. -/
theorem storedInTurn_of_room (ran : run capacity schedule = some rb)
    (room : ∀ before q after, schedule = before ++ .claim q :: after →
      ∀ j p, (claims schedule)[j]? = some p → j + capacity ≤ (claims before).length →
        p ∈ stores before) : StoredInTurn capacity schedule := by
  intro j k p q earlier here less same _
  obtain ⟨before, after, rfl, length⟩ := exists_claim here
  obtain ⟨rb', ran'⟩ := run_append_left ran
  have inv := inv_run before ran'
  have round : j + capacity ≤ k := by
    by_contra close
    exact mod_ne less (by omega) same
  have first : p ∈ stores before := room before q after rfl j p earlier (length ▸ round)
  have later : q ∉ stores before := by
    intro stored
    obtain ⟨i, there⟩ := List.mem_iff_getElem?.mp (inv.claimed q stored)
    have inside := (List.getElem?_eq_some_iff.mp there).1
    have all := (inv_run _ ran).claims_nodup
    have there' : (claims (before ++ .claim q :: after))[i]? = some q := by
      rw [claims, List.filterMap_append]
      exact (List.getElem?_append_left inside).trans there
    have twice := (List.getElem?_inj (List.getElem?_eq_some_iff.mp there').1 all).mp
      (there'.trans here.symm)
    omega
  have order : stores (before ++ .claim q :: after) = stores before ++ stores after := by
    rw [stores, List.filterMap_append]
    rfl
  rw [order, List.idxOf_append_of_mem first, List.idxOf_append_of_notMem later]
  have inside := List.idxOf_lt_length_iff.mpr first
  omega

theorem storedInTurn_of_room_two :
    StoredInTurn 1 [.claim 0, .store 0, .claim 1, .store 1] := by
  refine @storedInTurn_of_room 1 [.claim 0, .store 0, .claim 1, .store 1] _ rfl ?_
  intro before q after split j p earlier late
  match before, split with
  | [], _ => cases late
  | [_, _], split =>
    cases split
    obtain rfl : j = 0 := Nat.lt_one_iff.mp late
    cases earlier
    decide
  | _ :: _ :: _ :: rest, split => cases rest <;> simp at split

end Pace

end ReplayBuffer

end NyaQueue
