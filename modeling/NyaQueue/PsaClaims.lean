import NyaQueue.PsaMirror

/-!
# What a new key is given

`claimFreePartition` looks for the least loaded free partition, starting from
`math.MaxFloat64` and taking a strictly smaller load.  That is also the load it
assumes for a partition of which no load is known, so that such a partition is
never claimed.  The hash that decides then, and stealing, bind keys to partitions
that stay in the free set, from where they are claimed with their keys.
-/

set_option autoImplicit false

namespace NyaQueue

open FloatArith

namespace PSA

variable {F : Type} [FloatArith F]

/-- The load of a partition in the last metrics, or the one assumed without. -/
def knownLoad (p : PSA F) (id : Nat) : F := (p.loads.getD []).getD id maxFloat

/-- The walk of `claimFreePartition` takes the partition if it comes to it first. -/
def Usable (p : PSA F) (id : Nat) : Prop := lt (p.knownLoad id) maxFloat = true

instance usableDecidable (p : PSA F) (id : Nat) : Decidable (p.Usable id) :=
  inferInstanceAs (Decidable (lt (p.knownLoad id) maxFloat = true))

/-- A `SelectPartition` has returned a partition that was free and without keys, and
has taken it out of the free set. -/
def HandsOut (p : PSA F) (key : Bytes) (n : Nat) (env : PsaEnv) : Prop :=
  ∃ part, (p.selectPartition key n env).1 = some part ∧ part ∈ p.free ∧
    (∀ k, p.bindings.peek k ≠ some part) ∧ part ∉ (p.selectPartition key n env).2.free

/-! ## The walk over the free partitions -/

/-- One partition of the walk. -/
def consider (p : PSA F) (best : Option Nat × F) (id : Nat) : Option Nat × F :=
  if lt (p.knownLoad id) best.2 then (some id, p.knownLoad id) else best

theorem leastLoaded_eq (p : PSA F) (ids : List Nat) :
    leastLoaded p.loads ids = (ids.foldl p.consider (none, maxFloat)).1 := by
  unfold leastLoaded consider knownLoad
  cases p.loads <;> rfl

section Walk

variable (trans : ∀ a b c : F, lt a b = true → lt b c = true → lt a c = true)
include trans

theorem consider_walk (p : PSA F) (ids : List Nat) (best : Option Nat × F) :
    ((∀ id ∈ ids, lt (p.knownLoad id) best.2 = false) ∧ ids.foldl p.consider best = best) ∨
    ∃ id ∈ ids, lt (p.knownLoad id) best.2 = true ∧
      ids.foldl p.consider best = (some id, p.knownLoad id) := by
  induction ids generalizing best with
  | nil => exact Or.inl ⟨fun _ member => (by cases member), rfl⟩
  | cons first rest ih =>
    rw [List.foldl_cons]
    cases below : lt (p.knownLoad first) best.2 with
    | false =>
      have kept : p.consider best first = best := by simp [consider, below]
      rw [kept]
      rcases ih best with ⟨above, same⟩ | ⟨id, member, found⟩
      · exact Or.inl ⟨List.forall_mem_cons.mpr ⟨below, above⟩, same⟩
      · exact Or.inr ⟨id, List.mem_cons_of_mem _ member, found⟩
    | true =>
      have taken : p.consider best first = (some first, p.knownLoad first) := by
        simp [consider, below]
      rw [taken]
      right
      rcases ih (some first, p.knownLoad first) with ⟨-, same⟩ | ⟨id, member, smaller, found⟩
      · exact ⟨first, List.mem_cons_self, below, same⟩
      · exact ⟨id, List.mem_cons_of_mem _ member, trans _ _ _ smaller below, found⟩

theorem leastLoaded_cases (p : PSA F) (ids : List Nat) :
    ((∀ id ∈ ids, ¬ p.Usable id) ∧ leastLoaded p.loads ids = none) ∨
    ∃ id ∈ ids, p.Usable id ∧ leastLoaded p.loads ids = some id := by
  rw [leastLoaded_eq]
  rcases consider_walk trans p ids (none, maxFloat) with ⟨above, same⟩ | ⟨id, member, below, found⟩
  · refine Or.inl ⟨fun id member usable => ?_, by rw [same]⟩
    rw [Usable, above id member] at usable
    cases usable
  · exact Or.inr ⟨id, member, below, by rw [found]⟩

theorem bestFree_cases (p : PSA F) (skip : Nat) (env : PsaEnv) :
    ((∀ id ∈ p.free, ¬ p.Usable id) ∧ p.bestFree skip env = none) ∨
    ∃ id ∈ p.free, p.Usable id ∧ p.bestFree skip env = some id := by
  unfold bestFree
  rcases leastLoaded_cases trans p ((env.first.arrange p.free).drop skip) with
    ⟨-, none⟩ | ⟨id, member, usable, found⟩
  · rw [none]
    dsimp only
    have walked : ∀ id, id ∈ env.second.arrange p.free ↔ id ∈ p.free := fun id =>
      (env.second.perm p.free).mem_iff
    simpa only [walked] using leastLoaded_cases trans p (env.second.arrange p.free)
  · rw [found]
    exact Or.inr ⟨id, (env.first.perm p.free).mem_iff.mp (List.mem_of_mem_drop member), usable, rfl⟩

theorem bestFree_last (p : PSA F) {skip id : Nat} {env : PsaEnv}
    (last : (env.first.arrange p.free).drop skip = [id]) (usable : p.Usable id) :
    p.bestFree skip env = some id := by
  unfold bestFree
  rw [last]
  rcases leastLoaded_cases trans p [id] with ⟨none, -⟩ | ⟨other, member, -, found⟩
  · exact absurd usable (none id List.mem_cons_self)
  · rw [found, List.mem_singleton.mp member]

end Walk

/-! ## The free set during a bind -/

section Free

omit [FloatArith F]

variable {p : PSA F}

theorem bind_free (key : Bytes) (part : Nat) (now : Int) :
    (p.bind key part now).2.free = (p.added key part).free := by
  unfold bind added
  dsimp only
  split <;> rfl

theorem free_subset_bind (key : Bytes) (part : Nat) (now : Int) :
    p.free ⊆ (p.bind key part now).2.free := by
  intro other member
  rw [bind_free]
  unfold added
  rcases (p.bindings.add key part).1 with _ | ⟨victim, old⟩
  · exact member
  · exact mem_free_removeFromReverseIndex .. |>.mpr (Or.inl member)

theorem mem_free_bind (proper : p.bindings.Proper) {key : Bytes}
    (unbound : p.bindings.peek key = none) {part other : Nat} {now : Int}
    (member : other ∈ (p.bind key part now).2.free) :
    other ∈ p.free ∨ ∃ k, p.bindings.peek k = some other := by
  rw [bind_free] at member
  unfold added at member
  rcases proper.peek_add unbound part with ⟨none, -⟩ | ⟨victim, old, gone, -, bound, -⟩
  · rw [none] at member
    exact Or.inl member
  · rw [gone] at member
    rcases mem_free_removeFromReverseIndex .. |>.mp member with old | ⟨rfl, -⟩
    · exact Or.inl old
    · exact Or.inr ⟨victim, bound⟩

theorem Mirror.free_length {n : Nat} (mirror : p.Mirror) (sound : p.Sound n) :
    p.free.length ≤ n := by
  have few := (mirror.nodup.subperm fun id member => List.mem_range.mpr (sound.free id member)).length_le
  rwa [List.length_range] at few

end Free

/-! ## What a call hands out -/

variable {p : PSA F} {n : Nat} {key : Bytes} {env : PsaEnv}

variable {id : Nat}

theorem selectPartition_claimed (positive : p.numPartitions ≠ 0)
    (unbound : p.bindings.peek key = none) (free : id ∈ p.free)
    (best : p.bestFree (env.draw % p.numPartitions) env = some id) :
    p.selectPartition key n env =
      bindTo { p with free := p.free.filter fun other => other ≠ id } key id env.now := by
  refine selectPartition_cases (motive := fun result => result = _) p key n env ?_ ?_ ?_ ?_
  · intro part bound
    rw [unbound] at bound
    cases bound
  · rintro (zero | ⟨-, none⟩)
    · exact absurd zero positive
    · exact absurd best (none id free)
  · intro part _ _ same
    rw [best] at same
    rw [Option.some.inj same]
  · intro _ _ none
    exact absurd best (none id free)

theorem not_handsOut_of_unclaimed (unbound : p.bindings.peek key = none)
    (none : ∀ part ∈ p.free, p.bestFree (env.draw % p.numPartitions) env ≠ some part) :
    ¬ p.HandsOut key n env := by
  unfold HandsOut
  refine selectPartition_cases (motive := fun result => ¬ ∃ part, result.1 = some part ∧
    part ∈ p.free ∧ (∀ k, p.bindings.peek k ≠ some part) ∧ part ∉ result.2.free) p key n env ?_ ?_ ?_ ?_
  · intro part bound
    rw [unbound] at bound
    cases bound
  · rintro - ⟨part, impossible, -⟩
    cases impossible
  · intro part _ free best
    exact absurd best (none part free)
  · rintro - - - ⟨part, -, free, -, gone⟩
    exact gone (free_subset_bind key _ env.now free)

theorem handsOut_of_claimed (sound : p.Sound n) (mirror : p.Mirror)
    (unbound : p.bindings.peek key = none) (free : id ∈ p.free)
    (best : p.bestFree (env.draw % p.numPartitions) env = some id)
    (bare : ∀ k, p.bindings.peek k ≠ some id) : p.HandsOut key n env := by
  have small := sound.free id free
  have positive : p.numPartitions ≠ 0 := by
    rw [sound.numPartitions]
    omega
  obtain ⟨bound, -⟩ := (sound.claim id).bind key small env.now
  unfold HandsOut
  rw [selectPartition_claimed positive unbound free best]
  refine ⟨id, by rw [bindTo, if_pos bound], free, bare, ?_⟩
  intro still
  rcases mem_free_bind (PSA.Mirror.claim mirror id).proper unbound still with left | ⟨k, bound⟩
  · simp at left
  · exact bare k bound

theorem bare_of_handsOut (positive : p.numPartitions ≠ 0) (unbound : p.bindings.peek key = none)
    (free : id ∈ p.free) (best : p.bestFree (env.draw % p.numPartitions) env = some id)
    (out : p.HandsOut key n env) : ∀ k, p.bindings.peek k ≠ some id := by
  unfold HandsOut at out
  rw [selectPartition_claimed positive unbound free best] at out
  obtain ⟨part, chosen, -, bare, -⟩ := out
  unfold bindTo at chosen
  dsimp only at chosen
  split_ifs at chosen
  rwa [Option.some.inj chosen]

/-! ## The draw that skips all partitions but one -/

/-- A map walk that comes to `id` last. -/
def lastOrder (id : Nat) : MapOrder Nat where
  arrange entries :=
    entries.filter (fun other => other ≠ id) ++ entries.filter (fun other => other = id)
  perm entries := by
    simpa using List.filter_append_perm (fun other => decide (other ≠ id)) entries

theorem lastOrder_drop {entries : List Nat} (nodup : entries.Nodup) (member : id ∈ entries) :
    ((lastOrder id).arrange entries).drop (entries.length - 1) = [id] := by
  have single : entries.filter (fun other => other = id) = [id] := by
    rw [List.filter_eq, List.count_eq_one_of_mem nodup member]
    rfl
  have length := ((lastOrder id).perm entries).length_eq
  simp only [lastOrder, single, List.length_append, List.length_singleton] at length ⊢
  exact List.drop_left' (by omega)

def lastEnv (id draw : Nat) : PsaEnv where
  now := 0
  draw := draw
  first := lastOrder id
  second := listOrder Nat
  keys := listOrder Bytes

theorem bestFree_lastEnv (trans : ∀ a b c : F, lt a b = true → lt b c = true → lt a c = true)
    (sound : p.Sound n) (mirror : p.Mirror) (free : id ∈ p.free) (usable : p.Usable id) :
    p.bestFree ((lastEnv id (p.free.length - 1)).draw % p.numPartitions)
      (lastEnv id (p.free.length - 1)) = some id := by
  have few := mirror.free_length sound
  have nonempty := List.length_pos_of_mem free
  have draw : (p.free.length - 1) % p.numPartitions = p.free.length - 1 := by
    rw [sound.numPartitions]
    exact Nat.mod_eq_of_lt (by omega)
  apply bestFree_last trans p _ usable
  rw [show (lastEnv id (p.free.length - 1)).draw = p.free.length - 1 from rfl, draw]
  exact lastOrder_drop mirror.nodup free

/-- In a state that a PSA for `n` partitions reaches, a key without binding is handed
a free partition without keys, under all draws and map orders, exactly when a free
partition has a known load and each of those that have one is without keys. -/
theorem hands_out_iff_usable_bare
    (trans : ∀ a b c : F, lt a b = true → lt b c = true → lt a c = true) (n : Nat)
    (events : List (PsaEvent F)) (own : Runs.Guarded step (ServesOwn n) (new n) events) :
    ∀ p ∈ Runs.states step (new n) events, ∀ key, p.bindings.peek key = none →
      ((∀ env, p.HandsOut key n env) ↔
        (∃ id ∈ p.free, p.Usable id) ∧ ∀ id ∈ p.free, p.Usable id → p.keysAt id = []) := by
  intro p member key unbound
  obtain ⟨sound, mirror⟩ := mirror_states events own p member
  have bare : ∀ id, p.keysAt id = [] ↔ ∀ k, p.bindings.peek k ≠ some id := by
    intro id
    simp only [List.eq_nil_iff_forall_not_mem, mirror.index, ne_eq]
  constructor
  · intro out
    constructor
    · by_contra none
      rcases bestFree_cases trans p ((psaEnv 0 0).draw % p.numPartitions) (psaEnv 0 0) with
        ⟨-, unclaimed⟩ | ⟨id, free, usable, -⟩
      · refine not_handsOut_of_unclaimed unbound (fun part _ => ?_) (out (psaEnv 0 0))
        rw [unclaimed]
        exact Option.some_ne_none part |>.symm
      · exact none ⟨id, free, usable⟩
    · intro id free usable
      have small := sound.free id free
      have positive : p.numPartitions ≠ 0 := by
        rw [sound.numPartitions]
        omega
      exact (bare id).mpr (bare_of_handsOut positive unbound free
        (bestFree_lastEnv trans sound mirror free usable) (out _))
  · rintro ⟨⟨id, free, usable⟩, clean⟩ env
    rcases bestFree_cases trans p (env.draw % p.numPartitions) env with
      ⟨none, -⟩ | ⟨best, there, known, found⟩
    · exact absurd usable (none id free)
    · exact handsOut_of_claimed sound mirror unbound there found ((bare best).mp (clean best there known))

/-- After metrics that have released all keys, a new key is handed a partition. -/
theorem hands_out_after_release :
    HandsOut (Runs.final step (new 4) (ownTopics.take 2)) [108] 4 (psaEnv 2000000000 3) := by
  refine (hands_out_iff_usable_bare ?_ 4 (ownTopics.take 2) (by decide) _
    (Runs.final_mem_states step _ _) [108] (by decide +kernel)).mpr ?_ _
  · intro a b c first second
    simp only [lt, decide_eq_true_eq] at first second ⊢
    exact first.trans second
  · decide +kernel

/-- Every partition has a message waiting, and the third the least load. -/
def busyMetrics : PsaEvent Rat :=
  .metrics { partitionLoads := [1, 1, 1 / 2, 1], queueDepth := [3, 3, 3, 3], msgRate := 0,
             throughput := 0 }
    { drained := fun _ => psaEnv 1000000000 0, overloaded := fun _ => psaEnv 1000000000 0,
      idle := fun _ => psaEnv 1000000000 0 }

/-- The first key of a new PSA is hashed to partition 2, though all four are free, and
2 stays free.  With the first metrics it is claimed for the next key, with the first
key still bound to it. -/
theorem first_key_is_hashed :
    let first := (new 4 : PSA Rat).selectPartition [107] 4 (psaEnv 1 0)
    let later := first.2.step busyMetrics
    let second := later.selectPartition [108] 4 (psaEnv 1000000001 0)
    (new 4 : PSA Rat).free = [0, 1, 2, 3] ∧ first.1 = some 2 ∧ 2 ∈ first.2.free ∧
    second.1 = some 2 ∧ later.bindings.peek [107] = some 2 ∧
    ¬ (new 4 : PSA Rat).HandsOut [107] 4 (psaEnv 1 0) ∧
    ¬ later.HandsOut [108] 4 (psaEnv 1000000001 0) := by
  have chosen : ((new 4 : PSA Rat).selectPartition [107] 4 (psaEnv 1 0)).1 = some 2 := by
    decide +kernel
  have free : 2 ∈ ((new 4 : PSA Rat).selectPartition [107] 4 (psaEnv 1 0)).2.free := by
    decide +kernel
  have again : ((((new 4 : PSA Rat).selectPartition [107] 4 (psaEnv 1 0)).2.step
      busyMetrics).selectPartition [108] 4 (psaEnv 1000000001 0)).1 = some 2 := by decide +kernel
  have bound : (((new 4 : PSA Rat).selectPartition [107] 4 (psaEnv 1 0)).2.step
      busyMetrics).bindings.peek [107] = some 2 := by decide +kernel
  refine ⟨rfl, chosen, free, again, bound, ?_, ?_⟩
  · rintro ⟨part, same, -, -, gone⟩
    rw [chosen] at same
    exact gone (Option.some.inj same ▸ free)
  · rintro ⟨part, same, -, bare, -⟩
    rw [again] at same
    exact bare [107] (bound.trans same)

end PSA

end NyaQueue
