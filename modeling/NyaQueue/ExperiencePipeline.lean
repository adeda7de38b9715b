import NyaQueue.BalancerRange
import NyaQueue.Lib.Runs

/-!
# The experience of the DQN balancer

Model of the way from the policy loop of `DQNBalancer` (`pkg/balancer/dqn.go`) to
its replay buffer.  A tick stores the last snapshot in `prevSnap` and the new one in
`currSnap`; `OnMetrics` loads the two, one after the other, and sends the transition
between them to `trainLoop` unless the channel is full.  The three goroutines are
interleaved between these stores, loads and channel operations.
-/

set_option autoImplicit false

namespace NyaQueue

variable {F : Type}

structure PolicySnap (F : Type) where
  state : List F
  action : Nat
  gen : Nat

/-- `nn.Transition`; `Done` is never set. -/
structure PolicyTransition (F : Type) where
  state : List F
  action : Nat
  reward : F
  nextState : List F

/-- What a transition is made of. -/
structure Experience (F : Type) where
  prev : PolicySnap F
  curr : PolicySnap F
  reward : F

def Experience.transition (e : Experience F) : PolicyTransition F :=
  ⟨e.prev.state, e.prev.action, e.reward, e.curr.state⟩

/-- `OnMetrics` after the first load. -/
structure MetricsCall (F : Type) where
  reward : F
  prev : Option (PolicySnap F)
  /-- a tick was between its two stores -/
  midTick : Bool
  /-- the ticks that have stored `currSnap` since -/
  completed : Nat

structure ExperienceRun (F : Type) where
  prevSnap : Option (PolicySnap F)
  currSnap : Option (PolicySnap F)
  snapGen : Nat
  /-- the snapshot of a tick that has stored `prevSnap` only -/
  policy : Option (PolicySnap F)
  lastProcessedGen : Nat
  call : Option (MetricsCall F)
  expCh : List (PolicyTransition F)
  droppedExperience : Nat
  /-- what has been pushed to the replay buffer -/
  pushed : List (PolicyTransition F)
  /-- all snapshots that have been `currSnap` -/
  ticks : List (PolicySnap F)
  formed : List (Experience F)

inductive ExperienceEvent (F : Type) where
  /-- a tick, up to its store of `prevSnap`; the network has answered `qValues` -/
  | tick (state qValues : List F)
  | storeCurr
  | loadPrev (reward : F)
  /-- the rest of `OnMetrics` -/
  | finish
  /-- `trainLoop` receives, also when it empties the channel before it returns -/
  | train

namespace ExperienceRun

def start : ExperienceRun F where
  prevSnap := none
  currSnap := none
  snapGen := 0
  policy := none
  lastProcessedGen := 0
  call := none
  expCh := []
  droppedExperience := 0
  pushed := []
  ticks := []
  formed := []

/-- The `select` at the end of `OnMetrics`. -/
def send (capacity : Nat) (s : ExperienceRun F) (t : PolicyTransition F) : ExperienceRun F :=
  if s.expCh.length < capacity then { s with expCh := s.expCh ++ [t] }
  else { s with droppedExperience := s.droppedExperience + 1 }

/-- What the call makes a transition of, if of anything. -/
def forms (s : ExperienceRun F) (c : MetricsCall F) : Option (Experience F) :=
  match c.prev, s.currSnap with
  | some prev, some curr =>
      if s.lastProcessedGen < curr.gen then some ⟨prev, curr, c.reward⟩ else none
  | _, _ => none

/-- The call has made the transition of `e` and is about to send it. -/
def made (s : ExperienceRun F) (e : Experience F) : ExperienceRun F :=
  { s with lastProcessedGen := e.curr.gen, call := none, formed := s.formed ++ [e] }

variable [FloatArith F] (numPartitions capacity : Nat)

def step (s : ExperienceRun F) : ExperienceEvent F → ExperienceRun F
  | .tick state qValues =>
      match s.policy with
      | some _ => s
      | none =>
          { s with
            snapGen := s.snapGen + 1
            prevSnap := s.currSnap
            policy := some ⟨state, argmax (qValues.take numPartitions), s.snapGen + 1⟩ }
  | .storeCurr =>
      match s.policy with
      | none => s
      | some snap =>
          { s with
            currSnap := some snap
            policy := none
            call := s.call.map fun c => { c with completed := c.completed + 1 }
            ticks := s.ticks ++ [snap] }
  | .loadPrev reward =>
      match s.call with
      | some _ => s
      | none => { s with call := some ⟨reward, s.prevSnap, s.policy.isSome, 0⟩ }
  | .finish =>
      match s.call with
      | none => s
      | some c =>
          match s.forms c with
          | none => { s with call := none }
          | some e => (s.made e).send capacity e.transition
  | .train =>
      match s.expCh with
      | [] => s
      | t :: rest => { s with expCh := rest, pushed := s.pushed ++ [t] }

/-- The experience is made of snapshots of the policy loop and never goes back in
time, every snapshot is the next state of at most one transition, and what is not
dropped reaches the replay buffer in order. -/
structure Sound (s : ExperienceRun F) : Prop where
  snaps : ∀ e ∈ s.formed, e.prev ∈ s.ticks ∧ e.curr ∈ s.ticks ∧ e.prev.gen ≤ e.curr.gen
  once : s.formed.Pairwise fun e e' => e.curr.gen < e'.curr.gen
  order : (s.pushed ++ s.expCh).Sublist (s.formed.map Experience.transition)
  count : s.formed.length = s.pushed.length + s.expCh.length + s.droppedExperience
  room : s.expCh.length ≤ capacity

def Consecutive (s : ExperienceRun F) : Prop := ∀ e ∈ s.formed, e.curr.gen = e.prev.gen + 1

/-- If `OnMetrics` makes a transition, no tick has completed between its two loads,
or exactly the one that the first load had interrupted. -/
def Undivided (s : ExperienceRun F) : ExperienceEvent F → Prop
  | .finish => ∀ c ∈ s.call, (s.forms c).isSome = true → c.completed = c.midTick.toNat
  | _ => True

/-! ## The snapshots -/

section Snapshots

omit [FloatArith F]

/-- The snapshot that was the last one when there were `n`. -/
def latest (ticks : List (PolicySnap F)) (n : Nat) : Option (PolicySnap F) :=
  (ticks.take n).getLast?

variable {ticks : List (PolicySnap F)} {n : Nat}

theorem latest_concat (old : n ≤ ticks.length) (snap : PolicySnap F) :
    latest (ticks ++ [snap]) n = latest ticks n := by
  rw [latest, List.take_append_of_le_length old, latest]

theorem latest_length (ticks : List (PolicySnap F)) : latest ticks ticks.length = ticks.getLast? := by
  rw [latest, List.take_length]

theorem latest_mem {snap : PolicySnap F} (found : latest ticks n = some snap) : snap ∈ ticks :=
  List.mem_of_mem_take (List.mem_of_getLast? found)

theorem latest_gen (gens : ticks.map PolicySnap.gen = List.range' 1 ticks.length)
    (old : n ≤ ticks.length) {snap : PolicySnap F} (found : latest ticks n = some snap) :
    snap.gen = n := by
  have last : ((ticks.map PolicySnap.gen).take n).getLast? = some snap.gen := by
    rw [← List.map_take, List.getLast?_map]
    exact congrArg (Option.map PolicySnap.gen) found
  rw [gens, List.take_range'_of_length_ge old, List.getLast?_range'] at last
  split at last
  · cases last
  · have := Option.some.inj last
    omega

/-- Where the goroutines stand: `n` is the generation that the call has loaded. -/
def Loaded (s : ExperienceRun F) (c : MetricsCall F) (n : Nat) : Prop :=
  c.prev = latest s.ticks n ∧ n ≤ s.ticks.length ∧
    (c.prev.isSome = true → s.ticks.length + c.midTick.toNat = n + 1 + c.completed)

structure Inv (s : ExperienceRun F) : Prop where
  gens : s.ticks.map PolicySnap.gen = List.range' 1 s.ticks.length
  snapGen : s.snapGen = s.ticks.length + s.policy.isSome.toNat
  policy : ∀ snap ∈ s.policy, snap.gen = s.ticks.length + 1
  currSnap : s.currSnap = s.ticks.getLast?
  prevSnap : s.prevSnap = latest s.ticks (s.snapGen - 1)
  call : ∀ c ∈ s.call, ∃ n, s.Loaded c n

theorem Inv.curr_gen {s : ExperienceRun F} (inv : Inv s) {curr : PolicySnap F}
    (found : s.currSnap = some curr) : curr ∈ s.ticks ∧ curr.gen = s.ticks.length := by
  rw [inv.currSnap, ← latest_length] at found
  exact ⟨latest_mem found, latest_gen inv.gens (Nat.le_refl _) found⟩

/-- Of the two snapshots that a call has loaded, the second is the later one, or the
same if the first load fell between the stores of a tick that is still not over. -/
theorem Inv.forms_some {s : ExperienceRun F} (inv : Inv s) {c : MetricsCall F}
    (running : s.call = some c) {e : Experience F} (formed : s.forms c = some e) :
    e.prev ∈ s.ticks ∧ e.curr ∈ s.ticks ∧ s.lastProcessedGen < e.curr.gen ∧
      e.curr.gen = s.ticks.length ∧ e.prev.gen ≤ e.curr.gen ∧
      e.curr.gen + c.midTick.toNat = e.prev.gen + 1 + c.completed := by
  obtain ⟨n, loaded, old, at_load⟩ := inv.call c running
  unfold forms at formed
  split at formed
  · rename_i prev curr first second
    split at formed
    · rename_i later
      cases formed
      obtain ⟨current, own⟩ := inv.curr_gen second
      rw [first] at at_load
      rw [first] at loaded
      have gen := latest_gen inv.gens old loaded.symm
      have := at_load rfl
      dsimp only
      exact ⟨latest_mem loaded.symm, current, later, own, by omega, by omega⟩
    · cases formed
  · cases formed

end Snapshots

/-! ## One step -/

variable {numPartitions capacity} {s : ExperienceRun F}

theorem Inv.tick (inv : Inv s) (state qValues : List F) :
    Inv (s.step numPartitions capacity (.tick state qValues)) := by
  simp only [step]
  cases idle : s.policy with
  | some _ => exact inv
  | none =>
    have all : s.snapGen = s.ticks.length := by
      rw [inv.snapGen, idle]
      rfl
    refine ⟨inv.gens, ?_, ?_, inv.currSnap, ?_, inv.call⟩
    · exact congrArg (· + 1) all
    · intro snap new
      cases new
      exact congrArg (· + 1) all
    · rw [inv.currSnap, ← latest_length, Nat.add_sub_cancel, all]

theorem Inv.storeCurr (inv : Inv s) : Inv (s.step numPartitions capacity .storeCurr) := by
  simp only [step]
  cases stored : s.policy with
  | none => exact inv
  | some snap =>
    have own := inv.policy snap stored
    have all : s.snapGen = s.ticks.length + 1 := by
      rw [inv.snapGen, stored]
      rfl
    refine ⟨?_, ?_, nofun, ?_, ?_, ?_⟩
    · rw [List.map_append, inv.gens, List.map_singleton, own, List.length_append,
        List.length_singleton, List.range'_concat, Nat.one_mul, Nat.add_comm 1]
    · simpa using all
    · exact List.getLast?_concat.symm
    · dsimp only
      rw [inv.prevSnap, latest_concat (by omega)]
    · intro c running
      obtain ⟨c', before, rfl⟩ := Option.map_eq_some_iff.mp running
      obtain ⟨n, loaded, old, at_load⟩ := inv.call c' before
      refine ⟨n, ?_, ?_, ?_⟩
      · rw [latest_concat old]
        exact loaded
      · rw [List.length_append, List.length_singleton]
        omega
      · intro some
        have := at_load some
        rw [List.length_append, List.length_singleton]
        dsimp only
        omega

theorem Inv.loadPrev (inv : Inv s) (reward : F) :
    Inv (s.step numPartitions capacity (.loadPrev reward)) := by
  simp only [step]
  cases s.call with
  | some _ => exact inv
  | none =>
    refine { inv with call := fun c running => ?_ }
    cases running
    have all := inv.snapGen
    have one := Bool.toNat_le s.policy.isSome
    refine ⟨s.snapGen - 1, inv.prevSnap, ?_, ?_⟩
    · dsimp only
      omega
    intro some
    have positive : s.snapGen ≠ 0 := by
      intro zero
      rw [inv.prevSnap, zero] at some
      cases some
    dsimp only
    omega

/-- The last step of a call, whether or not it makes a transition. -/
theorem Inv.finish (inv : Inv s) : Inv (s.step numPartitions capacity .finish) := by
  simp only [step]
  split
  · exact inv
  · split
    · exact { inv with call := nofun }
    · unfold send
      split <;> exact { inv with call := nofun }

theorem Inv.step (inv : Inv s) (event : ExperienceEvent F) :
    Inv (s.step numPartitions capacity event) := by
  cases event with
  | tick state qValues => exact inv.tick state qValues
  | storeCurr => exact inv.storeCurr
  | loadPrev reward => exact inv.loadPrev reward
  | finish => exact inv.finish
  | train =>
    simp only [ExperienceRun.step]
    split
    · exact inv
    · exact { inv with }

omit [FloatArith F] in
theorem inv_start : Inv (start : ExperienceRun F) :=
  ⟨rfl, rfl, nofun, rfl, rfl, nofun⟩

/-! ## The transitions -/

/-- What holds of the transitions, and what bounds the next ones. -/
structure Accounts (capacity : Nat) (s : ExperienceRun F) : Prop extends Sound capacity s where
  processed : ∀ e ∈ s.formed, e.curr.gen ≤ s.lastProcessedGen

section Made

omit [FloatArith F]

theorem Accounts.made (accounts : Accounts capacity s) (inv : Inv s) {c : MetricsCall F}
    (running : s.call = some c) {e : Experience F} (formed : s.forms c = some e) :
    Accounts capacity ((s.made e).send capacity e.transition) := by
  obtain ⟨prev, curr, later, -, ordered, -⟩ := inv.forms_some running formed
  obtain ⟨⟨snaps, once, order, count, room⟩, processed⟩ := accounts
  have snaps' : ∀ e' ∈ s.formed ++ [e],
      e'.prev ∈ s.ticks ∧ e'.curr ∈ s.ticks ∧ e'.prev.gen ≤ e'.curr.gen := by
    simp only [List.forall_mem_append, List.forall_mem_singleton]
    exact ⟨snaps, prev, curr, ordered⟩
  have before : ∀ e' ∈ s.formed, e'.curr.gen < e.curr.gen := fun e' member =>
    Nat.lt_of_le_of_lt (processed e' member) later
  have once' : (s.formed ++ [e]).Pairwise fun e e' => e.curr.gen < e'.curr.gen := by
    refine List.pairwise_append.mpr ⟨once, List.pairwise_singleton .., ?_⟩
    simpa only [List.forall_mem_singleton] using before
  have processed' : ∀ e' ∈ s.formed ++ [e], e'.curr.gen ≤ e.curr.gen := by
    simp only [List.forall_mem_append, List.forall_mem_singleton]
    exact ⟨fun e' member => (before e' member).le, Nat.le_refl _⟩
  unfold send
  split
  · rename_i free
    refine ⟨⟨snaps', once', ?_, ?_, ?_⟩, processed'⟩
    · rw [show (s.made e).formed = s.formed ++ [e] from rfl, List.map_append, ← List.append_assoc]
      exact order.append_right _
    · simp only [ExperienceRun.made, List.length_append, List.length_singleton]
      omega
    · rw [List.length_append]
      exact free
  · refine ⟨⟨snaps', once', ?_, ?_, room⟩, processed'⟩
    · rw [show (s.made e).formed = s.formed ++ [e] from rfl, List.map_append]
      exact order.trans (List.sublist_append_left ..)
    · simp only [ExperienceRun.made, List.length_append, List.length_singleton]
      omega

end Made

theorem Accounts.step (accounts : Accounts capacity s) (inv : Inv s)
    (event : ExperienceEvent F) : Accounts capacity (s.step numPartitions capacity event) := by
  cases event with
  | finish =>
    simp only [ExperienceRun.step]
    split
    · exact accounts
    · rename_i c running
      split
      · exact { accounts with }
      · rename_i e formed
        exact accounts.made inv running formed
  | storeCurr =>
    simp only [ExperienceRun.step]
    split
    · exact accounts
    · refine { accounts with snaps := fun e member => ?_ }
      obtain ⟨prev, curr, ordered⟩ := accounts.snaps e member
      exact ⟨List.mem_append_left _ prev, List.mem_append_left _ curr, ordered⟩
  | train =>
    simp only [ExperienceRun.step]
    split
    · exact accounts
    · rename_i t rest queued
      have order := accounts.order
      have count := accounts.count
      have room := accounts.room
      rw [queued] at order count room
      simp only [List.length_cons] at count room
      refine { accounts with order := ?_, count := ?_, room := Nat.le_of_succ_le room }
      · rw [List.append_assoc]
        exact order
      · simp only [List.length_append, List.length_singleton]
        omega
  | _ =>
    simp only [ExperienceRun.step]
    split <;> exact { accounts with }

/-- However the three goroutines are interleaved, the experience is sound. -/
theorem experience_sound (numPartitions capacity : Nat) (events : List (ExperienceEvent F)) :
    ∀ s ∈ Runs.states (step numPartitions capacity) start events, s.Sound capacity := by
  have accounts : Accounts capacity (start : ExperienceRun F) :=
    ⟨⟨nofun, .nil, .slnil, rfl, Nat.zero_le _⟩, nofun⟩
  intro s member
  exact (Runs.invariant_of_step (fun s event (holds : Inv s ∧ Accounts capacity s) =>
    And.intro (holds.1.step event) (holds.2.step holds.1 event)) events start
    ⟨inv_start, accounts⟩ s member).2.toSound

theorem experience_sound_one :
    let s := Runs.final (step 1 1) (start : ExperienceRun Rat)
      [.tick [1] [0], .storeCurr, .tick [2] [0], .storeCurr, .loadPrev 3, .finish, .train]
    s.pushed.length = 1 ∧ s.Sound 1 :=
  ⟨rfl, experience_sound 1 1 _ _ (Runs.final_mem_states ..)⟩

/-- The next transition is from one tick to the following one exactly if the call is
undivided. -/
theorem Inv.consecutive_iff (inv : Inv s) (consecutive : s.Consecutive)
    (event : ExperienceEvent F) :
    (s.step numPartitions capacity event).Consecutive ↔ s.Undivided event := by
  cases event with
  | finish =>
    simp only [ExperienceRun.step, Undivided]
    cases running : s.call with
    | none => exact iff_of_true consecutive nofun
    | some c =>
      simp only [Option.mem_some_iff, forall_eq']
      cases formed : s.forms c with
      | none => exact iff_of_true consecutive nofun
      | some e =>
        obtain ⟨-, -, -, -, -, distance⟩ := inv.forms_some running formed
        have all : ((s.made e).send capacity e.transition).formed = s.formed ++ [e] := by
          unfold send
          split <;> rfl
        unfold Consecutive
        dsimp only
        rw [all]
        simp only [List.forall_mem_append, List.forall_mem_singleton, Option.isSome_some,
          forall_const]
        constructor
        · intro next
          have := next.2
          omega
        · intro undivided
          exact ⟨consecutive, by omega⟩
  | _ =>
    refine iff_of_true ?_ trivial
    simp only [ExperienceRun.step]
    split <;> exact consecutive

/-- Every transition goes from one tick to the following one exactly if no call of
`OnMetrics` that makes one is divided by a tick.  Otherwise it can skip ticks, or go from
a snapshot to itself. -/
theorem all_consecutive_iff_undivided (numPartitions capacity : Nat)
    (events : List (ExperienceEvent F)) :
    (∀ s ∈ Runs.states (step numPartitions capacity) start events, s.Consecutive) ↔
      Runs.Guarded (step numPartitions capacity) Undivided start events :=
  Runs.states_good_iff_guarded (fun s (holds : Inv s ∧ s.Consecutive) => holds.2)
    (fun _ event holds _ undivided =>
      ⟨holds.1.step event, (holds.1.consecutive_iff holds.2 event).mpr undivided⟩)
    (fun _ event holds _ next => (holds.1.consecutive_iff holds.2 event).mp next)
    events start ⟨inv_start, nofun⟩ (Runs.guarded_true events start)

example (state q : List F) (reward : F) :
    ((Runs.final (step 1 1) start [.tick state q, .storeCurr, .tick state q, .loadPrev reward,
      .finish]).formed.map fun e => (e.prev.gen, e.curr.gen)) = [(1, 1)] := rfl

end ExperienceRun

end NyaQueue
