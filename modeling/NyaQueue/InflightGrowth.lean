import NyaQueue.Inflight
import NyaQueue.Lib.Accounting
import NyaQueue.Lib.Threads

/-!
# Counters that are replaced

`ensureInflight` replaces an array of counters that is too short by a new one of
zeros.  Two choices and DQN share that code, and one balancer serves topics of
different sizes.  Here every load, swap and add of a publish is one step; whoever
holds the old array goes on with it.
-/

set_option autoImplicit false

namespace NyaQueue

/-- Where a publish is between the start of its `SelectPartition` and the end of its
`OnPublishComplete`. -/
inductive PublishStage where
  /-- in `ensureInflight`, before the load -/
  | ensuring (n : Nat)
  /-- before the swap, when `seen` arrays had been installed at the load -/
  | short (n seen : Nat)
  /-- `ensureInflight` has returned an array -/
  | holding (n array : Nat)
  /-- `SelectPartition` has returned -/
  | outstanding (part : Nat)
  /-- `OnPublishComplete` has loaded an array that has the partition -/
  | completing (part array : Nat)
  | completed
  deriving DecidableEq

namespace PublishStage

/-- The partition of a selection that is not yet completed. -/
def selected : PublishStage → Option Nat
  | .outstanding part => some part
  | .completing part _ => some part
  | _ => none

/-- What the stage counts for a partition. -/
def weight (stage : PublishStage) (part : Nat) : Nat := if stage.selected = some part then 1 else 0

end PublishStage

/-- `(*ptr)[idx].Add(delta)`, for an array that has the partition -/
def bump (idx : Nat) (delta : Int64) (counters : List Int64) : List Int64 :=
  (addInflight counters idx delta).getD counters

structure GrowthRun where
  /-- the arrays installed so far, the current one last -/
  arrays : List (List Int64)
  publishes : List PublishStage

inductive GrowthEvent where
  /-- a `SelectPartition` that asks for `n` counters; two choices ask for at least one -/
  | select (n : Nat)
  /-- the next step of a publish; a `SelectPartition` that adds has made its choice -/
  | advance (i choice : Nat)
  | complete (i : Nat)

namespace GrowthRun

def start : GrowthRun := ⟨[], []⟩

/-- What the balancer's pointer leads to. -/
def current (s : GrowthRun) : Option (List Int64) := s.arrays.getLast?

def resume (s : GrowthRun) (i : Nat) (stage : PublishStage) : GrowthRun :=
  { s with publishes := s.publishes.set i stage }

def addAt (s : GrowthRun) (array idx : Nat) (delta : Int64) : GrowthRun :=
  { s with arrays := s.arrays.modify array (bump idx delta) }

def install (s : GrowthRun) (n : Nat) : GrowthRun :=
  { s with arrays := s.arrays ++ [List.replicate n 0] }

def advance (s : GrowthRun) (i choice : Nat) : PublishStage → GrowthRun
  | .ensuring n =>
      if s.current.any fun counters => n ≤ counters.length then
        s.resume i (.holding n (s.arrays.length - 1))
      else s.resume i (.short n s.arrays.length)
  | .short n seen =>
      if seen = s.arrays.length then (s.install n).resume i (.holding n s.arrays.length)
      else s.resume i (.ensuring n)
  | .holding n array =>
      if choice < n then (s.addAt array choice 1).resume i (.outstanding choice) else s
  | .completing part array => (s.addAt array part (-1)).resume i .completed
  | .outstanding _ => s
  | .completed => s

def complete (s : GrowthRun) (i : Nat) : PublishStage → GrowthRun
  | .outstanding part =>
      if s.current.any fun counters => part < counters.length then
        s.resume i (.completing part (s.arrays.length - 1))
      else s.resume i .completed
  | _ => s

def step (s : GrowthRun) : GrowthEvent → GrowthRun
  | .select n => { s with publishes := s.publishes ++ [.ensuring n] }
  | .advance i choice => (s.publishes[i]?.map (s.advance i choice)).getD s
  | .complete i => (s.publishes[i]?.map (s.complete i)).getD s

/-- The counter that the balancer's scores read. -/
def counter (s : GrowthRun) (part : Nat) : Int64 :=
  (s.current.bind fun counters => counters[part]?).getD 0

/-- The selections of a partition that are not yet completed. -/
def outstanding (s : GrowthRun) (part : Nat) : Nat :=
  s.publishes.countP fun stage => stage.selected = some part

/-- The counter of every partition is the number of its selections not yet completed;
so it is not negative. -/
def Faithful (s : GrowthRun) : Prop := ∀ part, (s.counter part).toInt = s.outstanding part

/-! ## What the small steps change -/

variable {s : GrowthRun} {i : Nat} {stage : PublishStage}

theorem advance_at (here : s.publishes[i]? = some stage) (choice : Nat) :
    s.step (.advance i choice) = s.advance i choice stage := by
  simp [step, here]

theorem complete_at (here : s.publishes[i]? = some stage) :
    s.step (.complete i) = s.complete i stage := by
  simp [step, here]

theorem resume_self (here : s.publishes[i]? = some stage) (new : PublishStage) :
    (s.resume i new).publishes[i]? = some new := Threads.set_self here new

theorem length_bump (idx : Nat) (delta : Int64) (counters : List Int64) :
    (bump idx delta counters).length = counters.length := by
  unfold bump addInflight
  cases counters[idx]? <;> simp

theorem get_bump (idx : Nat) (delta : Int64) (counters : List Int64) (part : Nat) :
    (bump idx delta counters)[part]? =
      if part = idx then counters[part]?.map (· + delta) else counters[part]? := by
  unfold bump addInflight
  cases here : counters[idx]? with
  | none =>
    by_cases same : part = idx
    · simp [same, here]
    · simp [same]
  | some count =>
    have inside := (List.getElem?_eq_some_iff.mp here).1
    by_cases same : part = idx
    · rw [same, if_pos rfl, here, Option.getD_some, List.getElem?_set_self inside]
      rfl
    · simp [List.getElem?_set_ne (Ne.symm same), same]

theorem bump_of_added {counters counters' : List Int64} {idx : Nat} {delta : Int64}
    (added : addInflight counters idx delta = some counters') :
    bump idx delta counters = counters' := by
  rw [bump, added, Option.getD_some]

@[simp] theorem current_resume (s : GrowthRun) (i : Nat) (stage : PublishStage) :
    (s.resume i stage).current = s.current := rfl

@[simp] theorem counter_resume (s : GrowthRun) (i : Nat) (stage : PublishStage) (part : Nat) :
    (s.resume i stage).counter part = s.counter part := rfl

@[simp] theorem current_install (s : GrowthRun) (n : Nat) :
    (s.install n).current = some (List.replicate n 0) := by
  simp [current, install]

@[simp] theorem counter_install (s : GrowthRun) (n part : Nat) : (s.install n).counter part = 0 := by
  by_cases inside : part < n <;> simp [counter, inside]

theorem current_addAt (s : GrowthRun) (array idx : Nat) (delta : Int64) :
    (s.addAt array idx delta).current =
      if array + 1 = s.arrays.length then s.current.map (bump idx delta) else s.current := by
  unfold current addAt
  dsimp only
  rw [List.getLast?_eq_getElem?, List.getLast?_eq_getElem?, List.length_modify, List.getElem?_modify]
  cases held : s.arrays[s.arrays.length - 1]? with
  | none => simp
  | some counters =>
    have inside := (List.getElem?_eq_some_iff.mp held).1
    by_cases last : array + 1 = s.arrays.length
    · rw [if_pos last, show array = s.arrays.length - 1 by omega]
      simp
    · simp [last, show array ≠ s.arrays.length - 1 by omega]

theorem counter_addAt {array idx : Nat} {counters : List Int64} (last : array + 1 = s.arrays.length)
    (held : s.current = some counters) (inside : idx < counters.length) (delta : Int64)
    (part : Nat) :
    (s.addAt array idx delta).counter part = s.counter part + if part = idx then delta else 0 := by
  unfold counter
  rw [current_addAt, if_pos last, held]
  by_cases same : part = idx
  · subst same
    simp [get_bump, inside]
  · simp [get_bump, same]

theorem counter_addAt_old {array : Nat} (old : array + 1 ≠ s.arrays.length) (idx : Nat)
    (delta : Int64) (part : Nat) :
    (s.addAt array idx delta).counter part = s.counter part := by
  unfold counter
  rw [current_addAt, if_neg old]

theorem outstanding_eq_sum (s : GrowthRun) (part : Nat) :
    s.outstanding part = (s.publishes.map fun stage => stage.weight part).sum := by
  unfold outstanding
  induction s.publishes with
  | nil => rfl
  | cons stage rest ih =>
    simp only [List.countP_cons, List.map_cons, List.sum_cons, decide_eq_true_eq, ih]
    exact Nat.add_comm _ _

theorem outstanding_resume (here : s.publishes[i]? = some stage) (new : PublishStage) (part : Nat) :
    (s.resume i new).outstanding part + stage.weight part = s.outstanding part + new.weight part := by
  rw [outstanding_eq_sum, outstanding_eq_sum]
  exact Accounting.sum_set_add (fun stage => stage.weight part) new s.publishes i stage here

theorem outstanding_le (s : GrowthRun) (part : Nat) : s.outstanding part ≤ s.publishes.length :=
  List.countP_le_length

theorem outstanding_select (s : GrowthRun) (n part : Nat) :
    (s.step (.select n)).outstanding part = s.outstanding part := by
  simp [step, outstanding, PublishStage.selected]

theorem outstanding_eq_zero (idle : ∀ stage ∈ s.publishes, stage.selected = none) (part : Nat) :
    s.outstanding part = 0 := by
  apply List.countP_eq_zero.mpr
  intro stage member
  simp [idle stage member]

@[simp] theorem outstanding_install (s : GrowthRun) (n part : Nat) :
    (s.install n).outstanding part = s.outstanding part := rfl

@[simp] theorem outstanding_addAt (s : GrowthRun) (array idx : Nat) (delta : Int64) (part : Nat) :
    (s.addAt array idx delta).outstanding part = s.outstanding part := rfl

theorem weight_le_outstanding (here : s.publishes[i]? = some stage) (part : Nat) :
    stage.weight part ≤ s.outstanding part := by
  have moved := outstanding_resume here .completed part
  simp only [show PublishStage.weight .completed part = 0 from rfl] at moved
  omega

theorem current_eq_get (s : GrowthRun) : s.current = s.arrays[s.arrays.length - 1]? :=
  List.getLast?_eq_getElem?

/-! ## Without others in between -/

section Alone

variable {F : Type} [FloatArith F]

omit [FloatArith F] in
theorem add_alone {s : GrowthRun} {i n array idx : Nat} {counters counters' : List Int64}
    (here : s.publishes[i]? = some (.holding n array)) (small : idx < n)
    (last : array + 1 = s.arrays.length) (held : s.current = some counters)
    (added : addInflight counters idx 1 = some counters') :
    (s.step (.advance i idx)).current = some counters' ∧
      (s.step (.advance i idx)).publishes[i]? = some (.outstanding idx) := by
  rw [advance_at here, advance, if_pos small]
  refine ⟨?_, Threads.set_self here _⟩
  rw [current_resume, current_addAt, if_pos last, held, Option.map_some, bump_of_added added]

omit [FloatArith F] in
theorem ensure_alone {s : GrowthRun} {i n idx : Nat} {counters : List Int64}
    (here : s.publishes[i]? = some (.ensuring n)) (small : idx < n)
    (added : addInflight (ensureInflight s.current n) idx 1 = some counters) :
    (Runs.final step s (List.replicate 3 (.advance i idx))).current = some counters := by
  simp only [Runs.final, List.foldl_cons, List.foldl_nil, List.replicate]
  cases room : s.current.any fun counters => n ≤ counters.length with
  | true =>
    obtain ⟨current, held, enough⟩ := (Option.any_eq_true ..).mp room
    have loaded : s.step (.advance i idx) = s.resume i (.holding n (s.arrays.length - 1)) := by
      rw [advance_at here, advance, if_pos room]
    have last : s.arrays.length - 1 + 1 = s.arrays.length := by
      rw [current_eq_get] at held
      have inside := (List.getElem?_eq_some_iff.mp held).1
      omega
    simp only [held, ensureInflight, if_pos (of_decide_eq_true enough)] at added
    rw [loaded]
    obtain ⟨now, returned⟩ := add_alone (resume_self here _) small last held added
    rw [advance_at returned]
    exact now
  | false =>
    have fresh : ensureInflight s.current n = List.replicate n 0 := by
      cases held : s.current with
      | none => rfl
      | some current =>
        rw [held, Option.any_some, decide_eq_false_iff_not] at room
        simp only [ensureInflight, if_neg room]
    have loaded : s.step (.advance i idx) = s.resume i (.short n s.arrays.length) := by
      rw [advance_at here, advance, room, if_neg Bool.false_ne_true]
    have swapped : (s.resume i (.short n s.arrays.length)).step (.advance i idx) =
        ((s.resume i (.short n s.arrays.length)).install n).resume i
          (.holding n s.arrays.length) := by
      rw [advance_at (resume_self here _)]
      exact if_pos rfl
    rw [fresh] at added
    rw [loaded, swapped]
    have holds : ((s.resume i (.short n s.arrays.length)).install n).publishes[i]? =
        some (.short n s.arrays.length) := resume_self here _
    exact (add_alone (resume_self holds _) small (by simp [resume, install])
      (current_install _ n) added).1

theorem select_alone (bal : CountingBalancer F) (s : GrowthRun) (same : s.current = bal.inflight)
    {n : Nat} (positive : 1 ≤ n) (fits : n < 2 ^ 63) (draws : Draws F) :
    ∃ idx, (bal.selectPartition n draws).1 = some idx ∧
      (Runs.final step s (.select n :: List.replicate 3 (.advance s.publishes.length idx))).current =
        (bal.selectPartition n draws).2.inflight := by
  obtain ⟨idx, counters, small, chosen, added, held⟩ :=
    bal.selectPartition_counted positive fits draws
  refine ⟨idx, chosen, ?_⟩
  have entered : (s.step (.select n)).publishes[s.publishes.length]? = some (.ensuring n) := by
    simp [step]
  rw [← same] at added
  rw [Runs.final_cons, held]
  exact ensure_alone entered small added

omit [FloatArith F] in
theorem complete_alone (bal : CountingBalancer F) (s : GrowthRun) (same : s.current = bal.inflight)
    {i part : Nat} (here : s.publishes[i]? = some (.outstanding part)) :
    (Runs.final step s [.complete i, .advance i 0]).current =
      (bal.onPublishComplete part).inflight := by
  rw [bal.inflight_onPublishComplete, ← same]
  simp only [Runs.final, List.foldl_cons, List.foldl_nil]
  rw [complete_at here, complete]
  cases held : s.current with
  | none =>
    rw [Option.any_none, if_neg Bool.false_ne_true, advance_at (resume_self here _)]
    exact held
  | some counters =>
    rw [Option.any_some, publishComplete]
    by_cases inside : part < counters.length
    · have last : s.arrays.length - 1 + 1 = s.arrays.length := by
        rw [current_eq_get] at held
        have := (List.getElem?_eq_some_iff.mp held).1
        omega
      rw [if_pos (decide_eq_true inside), advance_at (resume_self here _), advance,
        current_resume, current_addAt]
      refine (if_pos last).trans ?_
      rw [current_resume, held]
      rfl
    · rw [if_neg (by simpa using inside), advance_at (resume_self here _), advance,
        current_resume, held]
      simp [addInflight, List.getElem?_eq_none (Nat.le_of_not_lt inside)]

end Alone

/-! ## The condition -/

/-- A publish may go on from a stage: it replaces the array only when no selection is
outstanding, and adds to the array that is current. -/
def MayGoOn (s : GrowthRun) (choice : Nat) : PublishStage → Prop
  | .short _ seen => seen = s.arrays.length → ∀ stage ∈ s.publishes, stage.selected = none
  | .holding n array => choice < n → array + 1 = s.arrays.length
  | _ => True

instance mayGoOnDecidable (s : GrowthRun) (choice : Nat) :
    ∀ stage, Decidable (s.MayGoOn choice stage)
  | .short _ seen => inferInstanceAs (Decidable
      (seen = s.arrays.length → ∀ stage ∈ s.publishes, stage.selected = none))
  | .holding n array => inferInstanceAs (Decidable (choice < n → array + 1 = s.arrays.length))
  | .ensuring _ => isTrue trivial
  | .outstanding _ => isTrue trivial
  | .completing _ _ => isTrue trivial
  | .completed => isTrue trivial

def Undisturbed (s : GrowthRun) : GrowthEvent → Prop
  | .advance i choice => ∀ stage ∈ s.publishes[i]?, s.MayGoOn choice stage
  | _ => True

instance undisturbedDecidable (s : GrowthRun) : ∀ event, Decidable (s.Undisturbed event)
  | .advance i choice => inferInstanceAs (Decidable (∀ stage ∈ s.publishes[i]?, s.MayGoOn choice stage))
  | .select _ => isTrue trivial
  | .complete _ => isTrue trivial

structure Tracks (s : GrowthRun) : Prop where
  counts : ∀ part, s.counter part = Int64.ofNat (s.outstanding part)
  holding : ∀ (i n array : Nat), s.publishes[i]? = some (.holding n array) →
    ∃ counters, s.arrays[array]? = some counters ∧ n ≤ counters.length
  completing : ∀ (i part array : Nat), s.publishes[i]? = some (.completing part array) →
    array + 1 = s.arrays.length

variable {s t : GrowthRun} {i : Nat} {old new : PublishStage}

theorem tracks_start : start.Tracks where
  counts part := rfl
  holding i n array here := by simp [start] at here
  completing i part array here := by simp [start] at here

theorem Tracks.move (tracks : s.Tracks) (here : s.publishes[i]? = some old)
    (publishes : t.publishes = s.publishes.set i new)
    (counts : ∀ part, t.counter part + Int64.ofNat (old.weight part) =
      s.counter part + Int64.ofNat (new.weight part))
    (kept : ∀ (array : Nat) (counters : List Int64), s.arrays[array]? = some counters →
      ∃ counters', t.arrays[array]? = some counters' ∧ counters.length ≤ counters'.length)
    (length : t.arrays.length = s.arrays.length ∨ ∀ (j part array : Nat),
      s.publishes[j]? ≠ some (.completing part array))
    (holding : ∀ n array, new = .holding n array →
      ∃ counters, t.arrays[array]? = some counters ∧ n ≤ counters.length)
    (completing : ∀ part array, new = .completing part array → array + 1 = t.arrays.length) :
    t.Tracks := by
  have moved : ∀ part, t.outstanding part + old.weight part =
      s.outstanding part + new.weight part := by
    intro part
    have resumed := outstanding_resume here new part
    rwa [show (s.resume i new).outstanding part = t.outstanding part by
      simp [outstanding, resume, publishes]] at resumed
  refine ⟨?_, ?_, ?_⟩
  · intro part
    rw [← Int64.add_left_inj (Int64.ofNat (old.weight part)), counts, tracks.counts,
      ← Int64.ofNat_add, ← Int64.ofNat_add, moved]
  · intro j n array there
    rw [publishes] at there
    rcases Threads.of_set there with ⟨-, own⟩ | ⟨-, before⟩
    · exact holding n array own.symm
    · obtain ⟨counters, found, room⟩ := tracks.holding j n array before
      obtain ⟨counters', found', more⟩ := kept array counters found
      exact ⟨counters', found', room.trans more⟩
  · intro j part array there
    rw [publishes] at there
    rcases Threads.of_set there with ⟨-, own⟩ | ⟨-, before⟩
    · exact completing part array own.symm
    · rcases length with equal | none
      · rw [equal]
        exact tracks.completing j part array before
      · exact absurd before (none j part array)

theorem Tracks.select (tracks : s.Tracks) (n : Nat) : (s.step (.select n)).Tracks := by
  -- the new publish holds nothing yet
  refine ⟨?_, ?_, ?_⟩
  · intro part
    rw [outstanding_select]
    exact tracks.counts part
  · intro j m array there
    exact tracks.holding j m array ((Threads.get_concat (by simp)).mp there)
  · intro j part array there
    exact tracks.completing j part array ((Threads.get_concat (by simp)).mp there)

theorem Tracks.resume (tracks : s.Tracks) (here : s.publishes[i]? = some old)
    (weights : new.selected = old.selected)
    (holding : ∀ n array, new = .holding n array →
      ∃ counters, s.arrays[array]? = some counters ∧ n ≤ counters.length)
    (completing : ∀ part array, new = .completing part array → array + 1 = s.arrays.length) :
    (s.resume i new).Tracks := by
  refine tracks.move here rfl ?_ (fun _ counters there => ⟨counters, there, Nat.le_refl _⟩)
    (Or.inl rfl) holding completing
  intro part
  rw [counter_resume, PublishStage.weight, PublishStage.weight, weights]

theorem get_addAt (s : GrowthRun) (array idx : Nat) (delta : Int64) (other : Nat)
    (counters : List Int64) (there : s.arrays[other]? = some counters) :
    ∃ counters', (s.addAt array idx delta).arrays[other]? = some counters' ∧
      counters.length ≤ counters'.length := by
  rw [addAt, List.getElem?_modify, there]
  refine ⟨_, rfl, ?_⟩
  split
  · rw [length_bump]
  · exact Nat.le_refl _

theorem Tracks.current_of_selected (tracks : s.Tracks) (few : s.publishes.length < 2 ^ 63)
    (here : s.publishes[i]? = some old) {part : Nat} (selected : old.selected = some part) :
    ∃ counters, s.current = some counters ∧ part < counters.length := by
  have one := weight_le_outstanding here part
  rw [PublishStage.weight, if_pos selected] at one
  have most := s.outstanding_le part
  have count := congrArg Int64.toInt (tracks.counts part)
  rw [Int64.toInt_ofNat_of_lt (by omega)] at count
  cases held : s.current with
  | none =>
    simp [counter, held] at count
    omega
  | some counters =>
    refine ⟨counters, rfl, ?_⟩
    by_contra outside
    simp [counter, held, List.getElem?_eq_none (Nat.le_of_not_lt outside)] at count
    omega

theorem Tracks.advance (tracks : s.Tracks) (few : s.publishes.length < 2 ^ 63) {choice : Nat}
    (here : s.publishes[i]? = some old) (may : s.MayGoOn choice old) :
    (s.advance i choice old).Tracks := by
  cases old with
  | ensuring n =>
    simp only [GrowthRun.advance]
    split_ifs with room
    · refine tracks.resume here rfl ?_ (by simp)
      intro m array same
      cases same
      obtain ⟨counters, held, enough⟩ := (Option.any_eq_true ..).mp room
      exact ⟨counters, s.current_eq_get ▸ held, of_decide_eq_true enough⟩
    · exact tracks.resume here rfl (by simp) (by simp)
  | short n seen =>
    simp only [GrowthRun.advance]
    split_ifs with unchanged
    · subst unchanged
      have idle := may rfl
      refine tracks.move here rfl ?_ ?_ (Or.inr ?_) ?_ (by simp)
      · intro part
        rw [counter_resume, counter_install, tracks.counts, outstanding_eq_zero idle]
        rfl
      · intro array counters there
        have inside := (List.getElem?_eq_some_iff.mp there).1
        exact ⟨counters, (List.getElem?_append_left inside).trans there, Nat.le_refl _⟩
      · intro j part array there
        have none := idle _ (List.mem_of_getElem? there)
        cases none
      · intro m array same
        cases same
        exact ⟨List.replicate n 0, List.getElem?_concat_length, by rw [List.length_replicate]⟩
    · exact tracks.resume here rfl (by simp) (by simp)
  | holding n array =>
    simp only [GrowthRun.advance]
    split_ifs with small
    · have last := may small
      obtain ⟨counters, there, room⟩ := tracks.holding i n array here
      have held : s.current = some counters := by
        rw [current_eq_get, ← last]
        exact there
      refine tracks.move here rfl ?_ (s.get_addAt array choice 1) (Or.inl (List.length_modify ..))
        (by simp) (by simp)
      intro part
      rw [counter_resume, counter_addAt last held (by omega)]
      by_cases same : part = choice
      · simp [PublishStage.weight, PublishStage.selected, same]
      · simp [PublishStage.weight, PublishStage.selected, same, Ne.symm same]
    · exact tracks
  | completing part array =>
    have last := tracks.completing i part array here
    obtain ⟨counters, held, inside⟩ := tracks.current_of_selected few here rfl
    refine tracks.move here rfl ?_ (s.get_addAt array part (-1)) (Or.inl (List.length_modify ..))
      (by simp) (by simp)
    intro other
    rw [GrowthRun.advance, counter_resume, counter_addAt last held inside]
    by_cases same : other = part
    · simp [PublishStage.weight, PublishStage.selected, same, Int64.add_assoc]
    · simp [PublishStage.weight, PublishStage.selected, same, Ne.symm same]
  | outstanding part => exact tracks
  | completed => exact tracks

theorem Tracks.complete (tracks : s.Tracks) (few : s.publishes.length < 2 ^ 63)
    (here : s.publishes[i]? = some old) : (s.complete i old).Tracks := by
  cases old with
  | outstanding part =>
    obtain ⟨counters, held, inside⟩ := tracks.current_of_selected few here rfl
    have last := (List.getElem?_eq_some_iff.mp (s.current_eq_get.symm.trans held)).1
    simp only [GrowthRun.complete, held, Option.any_some, if_pos (decide_eq_true inside)]
    refine tracks.resume here rfl (by simp) ?_
    intro part' array same
    cases same
    omega
  | _ => exact tracks

variable {event : GrowthEvent} {n : Nat}

theorem Tracks.step (tracks : s.Tracks) (few : s.publishes.length < 2 ^ 63)
    (undisturbed : s.Undisturbed event) : (s.step event).Tracks := by
  cases event with
  | select n => exact tracks.select n
  | advance i choice =>
    cases here : s.publishes[i]? with
    | none => simpa [GrowthRun.step, here] using tracks
    | some old =>
      rw [advance_at here]
      exact tracks.advance few here (undisturbed old here)
  | complete i =>
    cases here : s.publishes[i]? with
    | none => simpa [GrowthRun.step, here] using tracks
    | some old =>
      rw [complete_at here]
      exact tracks.complete few here

theorem Tracks.faithful (tracks : s.Tracks) (few : s.publishes.length < 2 ^ 63) : s.Faithful := by
  intro part
  rw [tracks.counts, Int64.toInt_ofNat_of_lt (Nat.lt_of_le_of_lt (s.outstanding_le part) few)]

/-! ## Nothing less will do -/

theorem Tracks.mayGoOn_of_faithful (tracks : s.Tracks) (few : s.publishes.length < 2 ^ 63)
    {choice : Nat} (here : s.publishes[i]? = some old)
    (after : (s.advance i choice old).Faithful) : s.MayGoOn choice old := by
  cases old with
  | short n seen =>
    rintro rfl stage member
    simp only [GrowthRun.advance, if_true] at after
    cases selected : stage.selected with
    | none => rfl
    | some part =>
      have zero := after part
      rw [counter_resume, counter_install] at zero
      have same := outstanding_resume (s := s.install n) here (.holding n s.arrays.length) part
      obtain ⟨j, there⟩ := List.mem_iff_getElem?.mp member
      have one := weight_le_outstanding there part
      rw [PublishStage.weight, if_pos selected] at one
      simp only [PublishStage.weight, PublishStage.selected, outstanding_install] at same
      simp at zero same
      omega
  | holding n array =>
    intro small
    by_contra older
    simp only [GrowthRun.advance, if_pos small] at after
    have now := after choice
    rw [counter_resume, counter_addAt_old older, tracks.faithful few choice] at now
    have moved := outstanding_resume (s := s.addAt array choice 1) here (.outstanding choice) choice
    simp only [PublishStage.weight, PublishStage.selected, outstanding_addAt] at moved
    simp at moved
    omega
  | _ => trivial

theorem Tracks.undisturbed_of_faithful (tracks : s.Tracks) (few : s.publishes.length < 2 ^ 63)
    (after : (s.step event).Faithful) : s.Undisturbed event := by
  cases event with
  | select n => trivial
  | complete i => trivial
  | advance i choice =>
    intro stage here
    rw [advance_at here] at after
    exact tracks.mayGoOn_of_faithful few here after

/-! ## Runs -/

theorem length_advance (s : GrowthRun) (i choice : Nat) (stage : PublishStage) :
    (s.advance i choice stage).publishes.length = s.publishes.length := by
  cases stage with
  | completing part array => exact List.length_set
  | outstanding part => rfl
  | completed => rfl
  | _ =>
    simp only [GrowthRun.advance]
    split_ifs <;> simp [GrowthRun.resume, install, addAt]

theorem length_complete (s : GrowthRun) (i : Nat) (stage : PublishStage) :
    (s.complete i stage).publishes.length = s.publishes.length := by
  cases stage with
  | outstanding part =>
    simp only [GrowthRun.complete]
    split_ifs <;> simp [GrowthRun.resume]
  | _ => rfl

theorem length_step (s : GrowthRun) (event : GrowthEvent) :
    (s.step event).publishes.length ≤ s.publishes.length + 1 := by
  cases event with
  | select n => simp [GrowthRun.step]
  | advance i choice => cases here : s.publishes[i]? <;> simp [GrowthRun.step, here, length_advance]
  | complete i => cases here : s.publishes[i]? <;> simp [GrowthRun.step, here, length_complete]

theorem few_publishes {bound : Nat} (events : List GrowthEvent) :
    ∀ s : GrowthRun, s.publishes.length + events.length < bound →
      Runs.Guarded GrowthRun.step (fun s _ => s.publishes.length + 1 < bound) s events := by
  induction events with
  | nil => intro s _; trivial
  | cons event rest ih =>
    intro s few
    rw [List.length_cons] at few
    have more := s.length_step event
    exact ⟨by omega, ih _ (by omega)⟩

/-- In a run of fewer than `2 ^ 63` steps the counter of every partition is at all
times the number of its selections not yet completed, exactly when no array is replaced
while a selection is outstanding and no selection is counted in an array that has been
replaced. -/
theorem counters_faithful_iff_undisturbed (events : List GrowthEvent)
    (few : events.length < 2 ^ 63) :
    (∀ s ∈ Runs.states GrowthRun.step start events, s.Faithful) ↔
      Runs.Guarded GrowthRun.step Undisturbed start events := by
  have enough : ∀ s : GrowthRun, s.Tracks ∧ s.publishes.length < 2 ^ 63 → s.Faithful :=
    fun s inv => inv.1.faithful inv.2
  have keep : ∀ (s : GrowthRun) event, s.Tracks ∧ s.publishes.length < 2 ^ 63 →
      s.publishes.length + 1 < 2 ^ 63 → s.Undisturbed event →
      (s.step event).Tracks ∧ (s.step event).publishes.length < 2 ^ 63 := fun s event inv room undisturbed =>
    ⟨inv.1.step inv.2 undisturbed, Nat.lt_of_le_of_lt (s.length_step event) room⟩
  have necessary : ∀ (s : GrowthRun) event, s.Tracks ∧ s.publishes.length < 2 ^ 63 →
      s.publishes.length + 1 < 2 ^ 63 → (s.step event).Faithful → s.Undisturbed event :=
    fun s event inv _ after => inv.1.undisturbed_of_faithful inv.2 after
  exact Runs.states_good_iff_guarded enough keep necessary events start
    ⟨tracks_start, by decide⟩ (few_publishes events start (by simpa [start] using few))

/-- All the steps of a `SelectPartition` of publish `i`, which chooses partition `part`. -/
def selectSteps (n i part : Nat) : List GrowthEvent := .select n :: List.replicate 3 (.advance i part)

def completeSteps (i : Nat) : List GrowthEvent := [.complete i, .advance i 0]

/-- The larger topic comes when nothing is outstanding. -/
theorem counters_faithful_one_after_the_other :
    (Runs.final GrowthRun.step start
      (selectSteps 1 0 0 ++ completeSteps 0 ++ selectSteps 2 1 1)).Faithful :=
  (counters_faithful_iff_undisturbed _ (by decide)).mpr (by decide) _
    (Runs.final_mem_states GrowthRun.step _ _)

/-- A publish to a topic of two partitions replaces the array that counts one to a topic
of one; when this completes, its counter goes to `-1`.  Two choices, step by step the
same, end with these counters. -/
theorem completed_below_zero :
    let s := Runs.final GrowthRun.step start
      (selectSteps 1 0 0 ++ selectSteps 2 1 1 ++ completeSteps 0)
    let p : PowerOfTwoChoices Rat :=
      { loadEWMA := none, depthNorm := none, inflight := none, alpha := 3 / 10, loadWeight := 1,
        depthWeight := 1, inflightWeight := 2 }
    let first := p.selectPartition 1 { first := 0, second := 0, third := 0, uniform := 0 }
    let second := first.2.selectPartition 2 { first := 1, second := 0, third := 0, uniform := 0 }
    s.outstanding 0 = 0 ∧ (s.counter 0).toInt = -1 ∧ ¬ s.Faithful ∧
    first.1 = some 0 ∧ second.1 = some 1 ∧
    (second.2.onPublishComplete 0).inflight = s.current ∧ s.current = some [-1, 1] := by
  refine ⟨by decide, by decide, ?_, by decide, by decide +kernel, by decide +kernel, by decide⟩
  intro faithful
  have zero := faithful 0
  revert zero
  decide

/-! ## Topics of one size -/

/-- The stages of publishes that all ask for `n` counters, of which there is at most
one array. -/
def OfSize (n : Nat) (s : GrowthRun) : PublishStage → Prop
  | .ensuring m => m = n
  | .short m seen => m = n ∧ seen = 0
  | .holding _ array => array = 0 ∧ s.arrays ≠ []
  | .outstanding _ => s.arrays ≠ []
  | .completing _ _ => s.arrays ≠ []
  | .completed => True

structure OneArray (n : Nat) (s : GrowthRun) : Prop where
  arrays : s.arrays = [] ∨ ∃ counters, s.arrays = [counters] ∧ counters.length = n
  stages : ∀ stage ∈ s.publishes, s.OfSize n stage

theorem OneArray.undisturbed (one : s.OneArray n) (event : GrowthEvent) :
    s.Undisturbed event := by
  cases event with
  | select m => trivial
  | complete i => trivial
  | advance i choice =>
    intro stage here
    have size := one.stages stage (List.mem_of_getElem? here)
    cases stage with
    | short m seen =>
      rintro current other member
      have empty : s.arrays = [] := List.length_eq_zero_iff.mp (current.symm.trans size.2)
      have size' := one.stages other member
      cases other with
      | outstanding part => exact absurd empty size'
      | completing part array => exact absurd empty size'
      | _ => rfl
    | holding m array =>
      intro _
      rcases one.arrays with none | ⟨counters, single, -⟩
      · exact absurd none size.2
      · rw [single, size.1]
        rfl
    | _ => trivial

theorem OneArray.move (one : s.OneArray n) (publishes : t.publishes = s.publishes.set i new)
    (arrays : t.arrays = [] ∨ ∃ counters, t.arrays = [counters] ∧ counters.length = n)
    (kept : s.arrays ≠ [] → t.arrays ≠ []) (size : t.OfSize n new) : t.OneArray n := by
  refine ⟨arrays, fun stage member => ?_⟩
  rw [publishes] at member
  rcases List.mem_or_eq_of_mem_set member with before | rfl
  · have size' := one.stages stage before
    cases stage with
    | holding m array => exact ⟨size'.1, kept size'.2⟩
    | outstanding part => exact kept size'
    | completing part array => exact kept size'
    | _ => exact size'
  · exact size

theorem OneArray.addAt (one : s.OneArray n) (here : s.arrays ≠ []) (idx : Nat) (delta : Int64) :
    ∃ counters, (s.addAt 0 idx delta).arrays = [counters] ∧ counters.length = n := by
  rcases one.arrays with none | ⟨counters, single, length⟩
  · exact absurd none here
  · refine ⟨bump idx delta counters, ?_, (length_bump ..).trans length⟩
    rw [GrowthRun.addAt, single]
    rfl

theorem OneArray.advance (one : s.OneArray n) (here : s.publishes[i]? = some old)
    (tracks : s.Tracks) (choice : Nat) : (s.advance i choice old).OneArray n := by
  have size := one.stages old (List.mem_of_getElem? here)
  cases old with
  | ensuring m =>
    obtain rfl : m = n := size
    simp only [GrowthRun.advance]
    rcases one.arrays with none | ⟨counters, single, rfl⟩
    · rw [current, none, List.getLast?_nil, Option.any_none, if_neg Bool.false_ne_true]
      exact one.move rfl (Or.inl none) (fun some => some) ⟨rfl, rfl⟩
    · rw [current, single, List.getLast?_singleton, Option.any_some, if_pos (by simp)]
      exact one.move rfl (Or.inr ⟨counters, single, rfl⟩) (fun some => some)
        ⟨rfl, by simp [GrowthRun.resume, single]⟩
  | short m seen =>
    obtain ⟨rfl, rfl⟩ := size
    simp only [GrowthRun.advance]
    split_ifs with current
    · have none : s.arrays = [] := List.length_eq_zero_iff.mp current.symm
      have installed : (s.install m).arrays = [List.replicate m 0] := by
        rw [install, none]
        rfl
      refine one.move rfl (Or.inr ⟨_, installed, List.length_replicate⟩) ?_ ⟨by rw [none]; rfl, ?_⟩
      · exact fun some => absurd none some
      · exact installed ▸ List.cons_ne_nil _ _
    · exact one.move rfl one.arrays (fun some => some) rfl
  | holding m array =>
    obtain ⟨rfl, some⟩ := size
    simp only [GrowthRun.advance]
    split_ifs
    · obtain ⟨counters, single, length⟩ := one.addAt some choice 1
      have nonempty := single ▸ List.cons_ne_nil counters []
      exact one.move rfl (Or.inr ⟨counters, single, length⟩) (fun _ => nonempty) nonempty
    · exact one
  | completing part array =>
    have last := tracks.completing i part array here
    obtain rfl : array = 0 := by
      rcases one.arrays with none | ⟨counters, single, -⟩
      · exact absurd none size
      · rw [single, List.length_singleton] at last
        omega
    obtain ⟨counters, single, length⟩ := one.addAt size part (-1)
    have nonempty := single ▸ List.cons_ne_nil counters []
    exact one.move rfl (Or.inr ⟨counters, single, length⟩) (fun _ => nonempty) trivial
  | outstanding part => exact one
  | completed => exact one

theorem OneArray.complete (one : s.OneArray n) (here : s.publishes[i]? = some old) :
    (s.complete i old).OneArray n := by
  have size := one.stages old (List.mem_of_getElem? here)
  cases old with
  | outstanding part =>
    simp only [GrowthRun.complete]
    split_ifs
    · exact one.move rfl one.arrays (fun some => some) size
    · exact one.move rfl one.arrays (fun some => some) trivial
  | _ => exact one

theorem OneArray.select (one : s.OneArray n) : (s.step (.select n)).OneArray n := by
  refine ⟨one.arrays, fun stage member => ?_⟩
  rcases List.mem_append.mp member with before | new
  · have size := one.stages stage before
    cases stage <;> exact size
  · rw [List.mem_singleton.mp new]
    rfl

theorem OneArray.step (one : s.OneArray n) (tracks : s.Tracks)
    (size : ∀ m, event = .select m → m = n) : (s.step event).OneArray n := by
  cases event with
  | select m =>
    obtain rfl := size m rfl
    exact one.select
  | advance i choice =>
    cases here : s.publishes[i]? with
    | none => simpa [GrowthRun.step, here] using one
    | some old =>
      rw [advance_at here]
      exact one.advance here tracks choice
  | complete i =>
    cases here : s.publishes[i]? with
    | none => simpa [GrowthRun.step, here] using one
    | some old =>
      rw [complete_at here]
      exact one.complete here

/-- As long as all topics have `n` partitions, no interleaving of their publishes, the
race for the first array included, disturbs the counters. -/
theorem faithful_of_one_size (n : Nat) (events : List GrowthEvent) (few : events.length < 2 ^ 63)
    (size : ∀ m, .select m ∈ events → m = n) :
    ∀ s ∈ Runs.states GrowthRun.step start events, s.Faithful := by
  have keep : ∀ (s : GrowthRun) event,
      s.Tracks ∧ s.OneArray n ∧ s.publishes.length < 2 ^ 63 →
      s.publishes.length + 1 < 2 ^ 63 ∧ (∀ m, event = .select m → m = n) →
      (s.step event).Tracks ∧ (s.step event).OneArray n ∧ (s.step event).publishes.length < 2 ^ 63 := by
    rintro s event ⟨tracks, one, room⟩ ⟨more, size⟩
    exact ⟨tracks.step room (one.undisturbed event), one.step tracks size,
      Nat.lt_of_le_of_lt (s.length_step event) more⟩
  have sized : ∀ event ∈ events, ∀ m, event = .select m → m = n := by
    rintro event member m rfl
    exact size m member
  have guarded := (few_publishes events start (by simpa [start] using few)).and
    (Runs.guarded_of_forall events sized start)
  intro s member
  obtain ⟨tracks, -, room⟩ := Runs.invariant_states keep events start
    ⟨tracks_start, ⟨Or.inl rfl, by simp [start]⟩, by decide⟩ guarded s member
  exact tracks.faithful room

/-- Two publishes race for the first array. -/
theorem faithful_of_one_size_race :
    (Runs.final GrowthRun.step start [.select 2, .select 2, .advance 0 1, .advance 1 0,
      .advance 1 0, .advance 0 1, .advance 1 0, .complete 0, .advance 0 0]).Faithful :=
  faithful_of_one_size 2 _ (by decide) (by simp) _ (Runs.final_mem_states ..)

end GrowthRun

end NyaQueue
