import NyaQueue.BalancerRange

/-!
# The reverse index of a PSA

A PSA keeps its bindings twice: the cache leads from a key to its partition, and
each shard has the keys of its partition.  Claiming, hashing, eviction, release and
stealing change the two, and the free set, in different orders.  In the middle of an
operation on one partition they differ there only: by keys that have left the shard
and not yet the cache, and by the partition being empty and not free.
-/

set_option autoImplicit false

namespace NyaQueue

namespace PSA

section Parts

variable {F : Type}

/-- The keys of a partition's shard. -/
def keysAt (p : PSA F) (part : Nat) : List Bytes := (p.shards[part]?.map PsaShard.keys).getD []

variable (p : PSA F) (key : Bytes) (id part : Nat)

theorem keysAt_of_shard {p : PSA F} {part : Nat} {shard : PsaShard}
    (there : p.shards[part]? = some shard) : p.keysAt part = shard.keys := by
  simp [keysAt, there]

theorem keysAt_of_none {p : PSA F} {part : Nat} (none : p.shards[part]? = none) :
    p.keysAt part = [] := by
  simp [keysAt, none]

/-! ## What the small steps change -/

variable (shard : PsaShard)

@[simp] theorem setShard_bindings :
    (p.setShard id shard).bindings = p.bindings := rfl

@[simp] theorem setShard_free : (p.setShard id shard).free = p.free := rfl

@[simp] theorem setShard_length :
    (p.setShard id shard).shards.length = p.shards.length := List.length_set

theorem setShard_keysAt (inside : id < p.shards.length) :
    (p.setShard id shard).keysAt part = if part = id then shard.keys else p.keysAt part := by
  by_cases same : part = id
  · subst same
    simp [keysAt, setShard, inside]
  · simp [keysAt, setShard, List.getElem?_set_ne (Ne.symm same), same]

@[simp] theorem storeFree_shards : (p.storeFree id).shards = p.shards := rfl

@[simp] theorem storeFree_keysAt : (p.storeFree id).keysAt part = p.keysAt part := rfl

@[simp] theorem mem_storeFree : part ∈ (p.storeFree id).free ↔ part = id ∨ part ∈ p.free := by
  unfold storeFree
  dsimp only
  split_ifs with member
  · exact ⟨Or.inr, fun either => either.elim (fun same => same ▸ member) fun old => old⟩
  · exact List.mem_cons

theorem storeFree_nodup {p : PSA F} (nodup : p.free.Nodup) (id : Nat) : (p.storeFree id).free.Nodup := by
  unfold storeFree
  dsimp only
  split_ifs with member
  · exact nodup
  · exact List.nodup_cons.mpr ⟨member, nodup⟩

/-! ## The callback -/

@[simp] theorem removeFromReverseIndex_bindings :
    (p.removeFromReverseIndex key id).bindings = p.bindings :=
  removeFromReverseIndex_cases (motive := fun q => q.bindings = p.bindings) p key id
    (fun _ => rfl) (fun _ _ _ => rfl) (fun _ _ _ => rfl)

@[simp] theorem removeFromReverseIndex_length :
    (p.removeFromReverseIndex key id).shards.length = p.shards.length :=
  removeFromReverseIndex_cases (motive := fun q => q.shards.length = p.shards.length) p key id
    (fun _ => rfl) (fun _ _ _ => by simp) (fun _ _ _ => by simp)

theorem removeFromReverseIndex_keysAt : (p.removeFromReverseIndex key id).keysAt part =
    if part = id then (p.keysAt id).filter fun k => k ≠ key else p.keysAt part := by
  refine removeFromReverseIndex_cases (motive := fun q => q.keysAt part =
    if part = id then (p.keysAt id).filter fun k => k ≠ key else p.keysAt part) p key id ?_ ?_ ?_
  · intro none
    by_cases same : part = id
    · simp [same, keysAt_of_none none]
    · simp [same]
  · intro shard there last
    have inside := (List.getElem?_eq_some_iff.mp there).1
    rw [storeFree_keysAt, setShard_keysAt p id part _ inside, keysAt_of_shard there, last]
  · intro shard there _
    have inside := (List.getElem?_eq_some_iff.mp there).1
    rw [setShard_keysAt p id part _ inside, keysAt_of_shard there]

theorem mem_removeFromReverseIndex {k : Bytes} :
    k ∈ (p.removeFromReverseIndex key id).keysAt part ↔
      k ∈ p.keysAt part ∧ ¬ (part = id ∧ k = key) := by
  rw [removeFromReverseIndex_keysAt]
  by_cases same : part = id <;> simp [same]

theorem mem_free_removeFromReverseIndex {other : Nat} :
    other ∈ (p.removeFromReverseIndex key id).free ↔ other ∈ p.free ∨
      (other = id ∧ id < p.shards.length ∧ (p.removeFromReverseIndex key id).keysAt id = []) := by
  rw [removeFromReverseIndex_keysAt, if_pos rfl]
  refine removeFromReverseIndex_cases (motive := fun q => other ∈ q.free ↔ other ∈ p.free ∨
    (other = id ∧ id < p.shards.length ∧ (p.keysAt id).filter (fun k => k ≠ key) = [])) p key id
    ?_ ?_ ?_
  · intro none
    have outside := List.getElem?_eq_none_iff.mp none
    exact ⟨Or.inl, fun either => either.resolve_right fun gone => by omega⟩
  · intro shard there last
    have inside := (List.getElem?_eq_some_iff.mp there).1
    rw [mem_storeFree, setShard_free, keysAt_of_shard there]
    exact ⟨fun either => either.symm.imp_right fun same => ⟨same, inside, last⟩,
      fun either => either.symm.imp_left And.left⟩
  · intro shard there some
    rw [setShard_free, keysAt_of_shard there]
    exact ⟨Or.inl, fun either => either.resolve_right fun gone => some gone.2.2⟩

theorem removeFromReverseIndex_nodup {p : PSA F} (nodup : p.free.Nodup) (key : Bytes) (id : Nat) :
    (p.removeFromReverseIndex key id).free.Nodup :=
  removeFromReverseIndex_cases (motive := fun q => q.free.Nodup) p key id
    (fun _ => nodup) (fun _ _ _ => storeFree_nodup nodup id) (fun _ _ _ => nodup)

end Parts

/-! ## The invariant -/

/-- A key is in a partition's shard exactly if the cache leads from it to the
partition, and a partition without keys is free. -/
structure Mirror {F : Type} (p : PSA F) : Prop where
  index : ∀ key part, key ∈ p.keysAt part ↔ p.bindings.peek key = some part
  empties : ∀ part < p.shards.length, p.keysAt part = [] → part ∈ p.free
  proper : p.bindings.Proper
  nodup : p.free.Nodup

/-- The same in the middle of an operation on partition `id`: the keys `pending` have
left its shard already, and it may be empty without being free. -/
structure MirrorBut {F : Type} (p : PSA F) (id : Nat) (pending : List Bytes) : Prop where
  index : ∀ key part, key ∈ p.keysAt part ↔
    p.bindings.peek key = some part ∧ ¬ (part = id ∧ key ∈ pending)
  empties : ∀ part < p.shards.length, part ≠ id → p.keysAt part = [] → part ∈ p.free
  proper : p.bindings.Proper
  nodup : p.free.Nodup

section Keep

variable {F : Type} {p : PSA F}

theorem mirror_new (n : Nat) : (new n : PSA F).Mirror where
  index key part := by
    by_cases inside : part < n <;> simp [keysAt, new, inside]
  empties part inside _ := by
    simpa [new] using inside
  proper := Lru.proper_empty (by decide)
  nodup := List.nodup_range

theorem Mirror.toBut (mirror : p.Mirror) (id : Nat) : p.MirrorBut id [] where
  index key part := by simpa using mirror.index key part
  empties part inside _ := mirror.empties part inside
  proper := mirror.proper
  nodup := mirror.nodup

theorem Mirror.claim (mirror : p.Mirror) (part : Nat) :
    MirrorBut { p with free := p.free.filter fun other => other ≠ part } part [] where
  index := (mirror.toBut part).index
  empties other inside elsewhere empty :=
    List.mem_filter.mpr ⟨mirror.empties other inside empty, by simpa using elsewhere⟩
  proper := mirror.proper
  nodup := mirror.nodup.filter _

variable {id part : Nat} {key : Bytes}

theorem MirrorBut.done (but : p.MirrorBut id [])
    (freed : id < p.shards.length → p.keysAt id = [] → id ∈ p.free) : p.Mirror where
  index key part := by simpa using but.index key part
  empties part inside empty := by
    by_cases same : part = id
    · subst same
      exact freed inside empty
    · exact but.empties part inside same empty
  proper := but.proper
  nodup := but.nodup

theorem MirrorBut.storeFree (but : p.MirrorBut id []) : (p.storeFree id).Mirror := by
  have stored : (p.storeFree id).MirrorBut id [] := by
    refine ⟨but.index, ?_, but.proper, storeFree_nodup but.nodup id⟩
    intro part inside other empty
    rw [mem_storeFree]
    exact Or.inr (but.empties part inside other empty)
  exact stored.done fun _ _ => (mem_storeFree ..).mpr (Or.inl rfl)

theorem Mirror.setShard (mirror : p.Mirror) (inside : id < p.shards.length) (shard : PsaShard)
    (pending : List Bytes) (left : ∀ key, key ∈ shard.keys ↔ key ∈ p.keysAt id ∧ key ∉ pending) :
    (p.setShard id shard).MirrorBut id pending where
  index key part := by
    rw [setShard_keysAt p id part shard inside, setShard_bindings, ← mirror.index]
    by_cases same : part = id
    · simp [same, left]
    · simp [same]
  empties part small other empty := by
    rw [setShard_keysAt p id part shard inside, if_neg other] at empty
    exact mirror.empties part (by simpa using small) empty
  proper := mirror.proper
  nodup := mirror.nodup

/-! ## Removing bindings -/

theorem unbind_eq (bound : p.bindings.peek key = some id) :
    unbind id p key = removeFromReverseIndex
      { p with bindings := { p.bindings with entries := p.bindings.others key } } key id := by
  unfold unbind
  rw [if_pos bound, Lru.remove_of_peek bound]
  rfl

theorem MirrorBut.unbind {rest : List Bytes} (but : p.MirrorBut id (key :: rest)) :
    (PSA.unbind id p key).MirrorBut id rest := by
  by_cases bound : p.bindings.peek key = some id
  · have removed := but.proper.remove key
    rw [Lru.remove_of_peek bound] at removed
    rw [unbind_eq bound]
    refine ⟨?_, ?_, by simpa using removed, ?_⟩
    · intro k part
      rw [mem_removeFromReverseIndex, removeFromReverseIndex_bindings, Lru.peek_others]
      refine (and_congr_left' (but.index k part)).trans ?_
      -- the key that leaves was bound to `id`, the others lead to where they did
      by_cases same : k = key
      · subst same
        rw [bound]
        grind
      · simp [same]
    · intro part inside other empty
      rw [removeFromReverseIndex_keysAt, if_neg other] at empty
      rw [mem_free_removeFromReverseIndex]
      exact Or.inl (but.empties part (by simpa using inside) other empty)
    · apply removeFromReverseIndex_nodup
      exact but.nodup
  · have same : PSA.unbind id p key = p := by rw [PSA.unbind, if_neg bound]
    rw [same]
    refine ⟨?_, but.empties, but.proper, but.nodup⟩
    intro k part
    rw [but.index]
    by_cases here : k = key
    · subst here
      grind
    · simp [here]

theorem MirrorBut.unbindAll (keys : List Bytes) (but : p.MirrorBut id keys) :
    (keys.foldl (PSA.unbind id) p).MirrorBut id [] := by
  induction keys generalizing p with
  | nil => exact but
  | cons key rest ih => exact ih but.unbind

theorem unbind_frees (bound : p.bindings.peek key = some id) (inside : id < p.shards.length)
    (empty : (PSA.unbind id p key).keysAt id = []) :
    id ∈ (PSA.unbind id p key).free := by
  rw [unbind_eq bound] at empty ⊢
  exact mem_free_removeFromReverseIndex .. |>.mpr (Or.inr ⟨rfl, inside, empty⟩)

theorem Mirror.releasePartition (mirror : p.Mirror) (id : Nat) (env : PsaEnv) :
    (p.releasePartition id env).Mirror := by
  unfold PSA.releasePartition
  cases there : p.shards[id]? with
  | none => exact mirror
  | some shard =>
    have inside := (List.getElem?_eq_some_iff.mp there).1
    dsimp only
    split_ifs
    · exact mirror
    · exact (mirror.toBut id).storeFree
    · refine (MirrorBut.unbindAll _ (mirror.setShard inside _ _ ?_)).storeFree
      intro key
      simp [keysAt_of_shard there, (env.keys.perm shard.keys).mem_iff]

/-! ## Adding bindings -/

/-- The state in the middle of `bind`: the cache has the key, and the callback has run. -/
def added (p : PSA F) (key : Bytes) (part : Nat) : PSA F :=
  onEvict { p with bindings := (p.bindings.add key part).2 } (p.bindings.add key part).1

theorem bind_eq {shard : PsaShard} (there : (p.added key part).shards[part]? = some shard)
    (now : Int) :
    p.bind key part now = (true, (p.added key part).setShard part
      { keys := if key ∈ shard.keys then shard.keys else key :: shard.keys, lastBindTime := now }) := by
  unfold bind
  rw [added] at there
  simp only [there]
  rfl

@[simp] theorem added_bindings (key : Bytes) (part : Nat) :
    (p.added key part).bindings = (p.bindings.add key part).2 := by
  unfold added
  rcases (p.bindings.add key part).1 with _ | ⟨victim, old⟩
  · rfl
  · simp [onEvict]

@[simp] theorem added_length (key : Bytes) (part : Nat) :
    (p.added key part).shards.length = p.shards.length := by
  unfold added
  rcases (p.bindings.add key part).1 with _ | ⟨victim, old⟩
  · rfl
  · simp [onEvict]

theorem MirrorBut.added (but : p.MirrorBut part []) (unbound : p.bindings.peek key = none) :
    (p.added key part).MirrorBut part [key] := by
  have proper := but.proper.add key part
  have before : ∀ k q, k ∈ p.keysAt q ↔ p.bindings.peek k = some q := by
    simpa using but.index
  rcases but.proper.peek_add unbound part with ⟨none, after⟩ | ⟨victim, old, gone, other, bound, after⟩
  · have same : p.added key part = { p with bindings := (p.bindings.add key part).2 } := by
      rw [PSA.added, none]
      rfl
    rw [same]
    refine ⟨?_, but.empties, proper, but.nodup⟩
    intro k q
    refine (before k q).trans ?_
    rw [after]
    grind
  · have same : p.added key part = removeFromReverseIndex
        { p with bindings := (p.bindings.add key part).2 } victim old := by
      rw [PSA.added, gone]
      rfl
    rw [same]
    refine ⟨?_, ?_, by simpa using proper, ?_⟩
    · intro k q
      rw [mem_removeFromReverseIndex, removeFromReverseIndex_bindings, after]
      refine (and_congr_left' (before k q)).trans ?_
      grind
    · intro q inside elsewhere empty
      rw [mem_free_removeFromReverseIndex]
      by_cases here : q = old
      · subst here
        exact Or.inr ⟨rfl, by simpa using inside, empty⟩
      · rw [removeFromReverseIndex_keysAt, if_neg here] at empty
        exact Or.inl (but.empties q (by simpa using inside) elsewhere empty)
    · apply removeFromReverseIndex_nodup
      exact but.nodup

theorem MirrorBut.insert (but : p.MirrorBut part [key]) (bound : p.bindings.peek key = some part)
    {shard : PsaShard} (there : p.shards[part]? = some shard) (now : Int) :
    Mirror (p.setShard part
      { keys := if key ∈ shard.keys then shard.keys else key :: shard.keys, lastBindTime := now }) := by
  have inside := (List.getElem?_eq_some_iff.mp there).1
  have keys : ∀ k, k ∈ (if key ∈ shard.keys then shard.keys else key :: shard.keys) ↔
      k = key ∨ k ∈ p.keysAt part := by
    intro k
    rw [keysAt_of_shard there]
    split_ifs with old
    · exact ⟨Or.inr, fun either => either.elim (fun same => same ▸ old) id⟩
    · exact List.mem_cons
  refine ⟨?_, ?_, but.proper, but.nodup⟩
  · intro k q
    rw [setShard_keysAt _ _ _ _ inside, setShard_bindings]
    by_cases same : q = part
    · subst same
      rw [if_pos rfl]
      refine (keys k).trans ?_
      rw [but.index]
      grind
    · rw [if_neg same, but.index]
      simp [same]
  · intro q small empty
    rw [setShard_keysAt _ _ _ _ inside] at empty
    by_cases same : q = part
    · rw [if_pos same] at empty
      have member := (keys key).mpr (Or.inl rfl)
      rw [show (if key ∈ shard.keys then shard.keys else key :: shard.keys) = [] from empty] at member
      cases member
    · rw [if_neg same] at empty
      exact but.empties q (by simpa using small) same empty

theorem MirrorBut.bind (but : p.MirrorBut part []) (unbound : p.bindings.peek key = none)
    (inside : part < p.shards.length) (now : Int) :
    (p.bind key part now).2.Mirror := by
  have there : part < (p.added key part).shards.length := by simpa using inside
  rw [bind_eq (List.getElem?_eq_getElem there)]
  refine (but.added unbound).insert ?_ (List.getElem?_eq_getElem there) now
  rw [added_bindings, but.proper.peek_add_self unbound]

theorem MirrorBut.bindTo (but : p.MirrorBut part []) (unbound : p.bindings.peek key = none)
    (inside : part < p.shards.length) (now : Int) :
    (p.bindTo key part now).2.Mirror := but.bind unbound inside now

theorem Mirror.stealOneBinding (mirror : p.Mirror) (src dst : Nat) (env : PsaEnv) :
    (p.stealOneBinding src dst env).Mirror := by
  unfold PSA.stealOneBinding
  by_cases outside : p.shards.length ≤ dst
  · rw [if_pos outside]
    exact mirror
  · rw [if_neg outside]
    cases there : p.shards[src]? with
    | none => exact mirror
    | some shard =>
      dsimp only
      split_ifs with nothing
      · exact mirror
      · generalize chosen : (env.keys.arrange shard.keys).headD [] = victim at nothing ⊢
        have inside := (List.getElem?_eq_some_iff.mp there).1
        have member : victim ∈ p.keysAt src := by
          rw [keysAt_of_shard there, ← (env.keys.perm shard.keys).mem_iff]
          cases walked : env.keys.arrange shard.keys with
          | nil => simp_all
          | cons first rest => simp_all
        have bound := (mirror.index victim src).mp member
        have left := mirror.setShard inside
          { shard with keys := shard.keys.filter fun k => k ≠ victim } [victim]
          (by simp [keysAt_of_shard there])
        have back := left.unbind.done fun _ => unbind_frees bound (by simpa using inside)
        refine (back.toBut dst).bind ?_ ?_ env.now
        · rw [unbind_eq (by simpa using bound)]
          simp [Lru.peek_others]
        · rw [unbind_eq (by simpa using bound)]
          simpa using outside

end Keep

variable {F : Type} [FloatArith F] {p : PSA F} {n : Nat}

theorem Mirror.selectPartition (mirror : p.Mirror) (sound : p.Sound n) (key : Bytes)
    (env : PsaEnv) : (p.selectPartition key n env).2.Mirror := by
  refine selectPartition_cases (motive := fun result => result.2.Mirror) p key n env ?_ ?_ ?_ ?_
  · intro part _
    exact ⟨fun k q => by rw [Lru.peek_get]; exact mirror.index k q, mirror.empties,
      mirror.proper.get key, mirror.nodup⟩
  · intro _
    exact mirror
  · intro part unbound free _
    refine (mirror.claim part).bindTo unbound ?_ env.now
    exact sound.shards ▸ sound.free part free
  · intro unbound nonzero _
    refine (mirror.toBut _).bindTo unbound ?_ env.now
    rw [sound.shards]
    exact mod_toNat_lt _ nonzero

theorem Mirror.onMetrics (mirror : p.Mirror) (m : Metrics F) (env : MetricsEnv) :
    (p.onMetrics m env).Mirror :=
  onMetrics_keeps m env ⟨mirror.index, mirror.empties, mirror.proper, mirror.nodup⟩
    (fun _ id env mirror => mirror.releasePartition id env)
    (fun _ src dst env mirror => mirror.stealOneBinding src dst env)

theorem Mirror.step (mirror : p.Mirror) (sound : p.Sound n) {event : PsaEvent F}
    (own : ServesOwn n p event) : (p.step event).Mirror := by
  cases event with
  | select key numPartitions env =>
    obtain rfl : numPartitions = n := own
    exact mirror.selectPartition sound key env
  | metrics m env => exact mirror.onMetrics m env

theorem mirror_states (events : List (PsaEvent F))
    (own : Runs.Guarded step (ServesOwn n) (new n) events) :
    ∀ p ∈ Runs.states step (new n) events, p.Sound n ∧ p.Mirror := by
  have keep : ∀ (p : PSA F) event, p.Sound n ∧ p.Mirror → ServesOwn n p event →
      (p.step event).Sound n ∧ (p.step event).Mirror :=
    fun p event inv own => ⟨inv.1.step own, inv.2.step inv.1 own⟩
  exact Runs.invariant_states keep events _ ⟨sound_new n, mirror_new n⟩ own

/-- In every state of a PSA made for `n` partitions, after any calls for topics of `n`
partitions and any metrics, a key is in a partition's shard exactly if the cache binds
it to the partition, and every partition without keys is in the free set. -/
theorem reverse_index_mirrors_bindings (n : Nat) (events : List (PsaEvent F))
    (own : Runs.Guarded step (ServesOwn n) (new n) events) :
    ∀ p ∈ Runs.states step (new n) events,
      (∀ key part, key ∈ p.keysAt part ↔ p.bindings.peek key = some part) ∧
      ∀ part < n, p.keysAt part = [] → part ∈ p.free := by
  intro p member
  obtain ⟨sound, mirror⟩ := mirror_states events own p member
  refine ⟨mirror.index, fun part small => mirror.empties part ?_⟩
  rw [sound.shards]
  exact small

/-- A key that was hashed to partition 2, and released there when its queue was empty,
is claimed for partition 2 again. -/
theorem reverse_index_mirrors_own_topics :
    let p := Runs.final step (new 4) ownTopics
    p.bindings.peek [107] = some 2 ∧ [107] ∈ p.keysAt 2 := by
  have mirrors := reverse_index_mirrors_bindings 4 ownTopics (by decide) _
    (Runs.final_mem_states step ownTopics _)
  have bound : (Runs.final step (new 4) ownTopics).bindings.peek [107] = some 2 := by
    decide +kernel
  exact ⟨bound, (mirrors.1 [107] 2).mpr bound⟩

end PSA

end NyaQueue
