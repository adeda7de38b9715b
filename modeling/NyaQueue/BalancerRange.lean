import NyaQueue.Balancer
import NyaQueue.Lib.Runs

/-!
# Balancers choose a partition that exists

Whatever state it is in, each of round robin, two choices and DQN answers with a
partition of the topic.  A PSA keeps partitions from one call to the next, and
indexes its shards with what it chooses; it does so as long as every topic it
serves has as many partitions as it was made for.
-/

set_option autoImplicit false

namespace NyaQueue

open FloatArith

variable {F : Type} [FloatArith F]

/-- The call has returned, with a partition of a topic that has `n`. -/
def ValidChoice (n : Nat) (choice : Option Nat) : Prop := ∃ idx, choice = some idx ∧ idx < n

instance validChoiceDecidable (n : Nat) : ∀ choice, Decidable (ValidChoice n choice)
  | none => isFalse fun ⟨_, impossible, _⟩ => (by cases impossible)
  | some idx => decidable_of_iff (idx < n)
      ⟨fun small => ⟨idx, rfl, small⟩, fun ⟨_, same, small⟩ => Option.some.inj same ▸ small⟩

theorem uint64_toNat {n : Nat} (fits : n < 2 ^ 63) : (UInt64.ofNat n).toNat = n := by
  rw [UInt64.toNat_ofNat']
  exact Nat.mod_eq_of_lt (by omega)

theorem uint64_ne_zero {n : Nat} (positive : 1 ≤ n) (fits : n < 2 ^ 63) :
    UInt64.ofNat n ≠ 0 := by
  intro zero
  have same := congrArg UInt64.toNat zero
  rw [uint64_toNat fits, UInt64.toNat_zero] at same
  omega

theorem mod_toNat_lt (h : UInt64) {n : Nat} (nonzero : UInt64.ofNat n ≠ 0) :
    (h % UInt64.ofNat n).toNat < n := by
  have positive : 0 < (UInt64.ofNat n).toNat := by
    rw [← UInt64.toNat_zero]
    exact UInt64.lt_iff_toNat_lt.mp (UInt64.pos_iff_ne_zero.mpr nonzero)
  have small : (UInt64.ofNat n).toNat ≤ n := by
    rw [UInt64.toNat_ofNat']
    exact Nat.mod_le _ _
  rw [UInt64.toNat_mod]
  exact Nat.lt_of_lt_of_le (Nat.mod_lt _ positive) small

/-! ## Round robin -/

namespace RoundRobin

theorem skipLoaded_lt (loads : List F) (threshold : F) {n : Nat} (tries : Nat) {idx : Nat}
    (small : idx < n) : skipLoaded loads threshold n tries idx < n := by
  induction tries generalizing idx with
  | zero => exact small
  | succ tries ih =>
    unfold skipLoaded
    cases loads[idx]? with
    | none => exact small
    | some load =>
      dsimp only
      split_ifs
      · exact ih (Nat.mod_lt _ (Nat.zero_lt_of_lt small))
      · exact small

theorem selectPartition_valid (rr : RoundRobin F) {n : Nat} (positive : 1 ≤ n)
    (fits : n < 2 ^ 63) : ValidChoice n (rr.selectPartition n).1 := by
  have nonzero := uint64_ne_zero positive fits
  have small := mod_toNat_lt (rr.counter + 1) nonzero
  unfold selectPartition
  dsimp only
  rw [if_neg nonzero]
  split_ifs
  · exact ⟨_, rfl, small⟩
  · cases rr.loads with
    | none => exact ⟨_, rfl, small⟩
    | some loads => exact ⟨_, rfl, skipLoaded_lt loads _ _ small⟩

end RoundRobin

/-! ## In-flight counters -/

theorem ensureInflight_length (inflight : Option (List Int64)) (n : Nat) :
    n ≤ (ensureInflight inflight n).length := by
  unfold ensureInflight
  cases inflight with
  | none => rw [List.length_replicate]
  | some counters =>
    dsimp only
    split_ifs with enough
    · exact enough
    · rw [List.length_replicate]

theorem addInflight_some {counters : List Int64} {idx : Nat} (inside : idx < counters.length)
    (delta : Int64) : ∃ counters', addInflight counters idx delta = some counters' := by
  unfold addInflight
  rw [List.getElem?_eq_getElem inside]
  exact ⟨_, rfl⟩

/-- The call has returned a partition of a topic with `n`, and counted it among the
publishes in flight. -/
def CountedChoice (n : Nat) (inflight : Option (List Int64)) (choice : Option Nat)
    (inflight' : Option (List Int64)) : Prop :=
  ∃ idx counters, idx < n ∧ choice = some idx ∧
    addInflight (ensureInflight inflight n) idx 1 = some counters ∧ inflight' = some counters

theorem CountedChoice.valid {n : Nat} {inflight inflight' : Option (List Int64)}
    {choice : Option Nat} (counted : CountedChoice n inflight choice inflight') :
    ValidChoice n choice := by
  obtain ⟨idx, _, small, chosen, -⟩ := counted
  exact ⟨idx, chosen, small⟩

/-! ## Two choices -/

namespace PowerOfTwoChoices

omit [FloatArith F] in
theorem take_counted (p : PowerOfTwoChoices F) {n chosen : Nat} (small : chosen < n) :
    CountedChoice n p.inflight (p.take (ensureInflight p.inflight n) chosen).1
      (p.take (ensureInflight p.inflight n) chosen).2.inflight := by
  obtain ⟨counters, added⟩ :=
    addInflight_some (Nat.lt_of_lt_of_le small (ensureInflight_length p.inflight n)) 1
  unfold take
  rw [added]
  exact ⟨chosen, counters, small, rfl, added, rfl⟩

theorem selectPartition_counted (p : PowerOfTwoChoices F) {n : Nat} (positive : 1 ≤ n)
    (draws : Draws F) : CountedChoice n p.inflight (p.selectPartition n draws).1
      (p.selectPartition n draws).2.inflight := by
  unfold selectPartition
  by_cases single : n ≤ 1
  · obtain rfl : n = 1 := by omega
    rw [if_pos single]
    exact p.take_counted Nat.zero_lt_one
  · rw [if_neg single]
    apply p.take_counted
    have first : draws.first % n < n := Nat.mod_lt _ positive
    have second : draws.second % (n - 1) < n - 1 := Nat.mod_lt _ (by omega)
    split_ifs <;> omega

end PowerOfTwoChoices

/-! ## DQN -/

theorem argmaxFrom_lt (values rest : List F) (i best : Nat) (inside : best < values.length)
    (left : i + rest.length ≤ values.length) : argmaxFrom values rest i best < values.length := by
  induction rest generalizing i best with
  | nil => exact inside
  | cons value rest ih =>
    unfold argmaxFrom
    rw [List.getElem?_eq_getElem inside]
    rw [List.length_cons] at left
    apply ih
    · split_ifs <;> omega
    · omega

theorem argmax_lt {values : List F} (nonempty : 0 < values.length) :
    argmax values < values.length := by
  apply argmaxFrom_lt values values.tail 1 0 nonempty
  rw [List.length_tail]
  omega

namespace DQNBalancer

variable (d : DQNBalancer F)

omit [FloatArith F] in
theorem take_counted {inflight : Option (List Int64)} {n : Nat} {choice : Option Nat}
    (valid : ValidChoice n choice) :
    CountedChoice n inflight (d.take (ensureInflight inflight n) choice).1
      (d.take (ensureInflight inflight n) choice).2.inflight := by
  obtain ⟨idx, rfl, small⟩ := valid
  obtain ⟨counters, added⟩ :=
    addInflight_some (Nat.lt_of_lt_of_le small (ensureInflight_length inflight n)) 1
  unfold take
  dsimp only
  rw [added]
  exact ⟨idx, counters, small, rfl, added, rfl⟩

theorem selectFallback_counted (inflight : Option (List Int64)) {n : Nat} (positive : 1 ≤ n)
    (fits : n < 2 ^ 63) :
    CountedChoice n inflight (d.selectFallback (ensureInflight inflight n) n).1
      (d.selectFallback (ensureInflight inflight n) n).2.inflight :=
  take_counted _ (d.fallbackRR.selectPartition_valid positive fits)

theorem selectPartition_counted {n : Nat} (positive : 1 ≤ n) (fits : n < 2 ^ 63) (draws : Draws F) :
    CountedChoice n d.inflight (d.selectPartition n draws).1
      (d.selectPartition n draws).2.inflight := by
  have fallback := d.selectFallback_counted d.inflight positive fits
  unfold selectPartition
  dsimp only
  split_ifs
  · exact fallback
  · apply d.take_counted
    unfold intN
    rw [if_neg (by omega)]
    exact ⟨_, rfl, Nat.mod_lt _ positive⟩
  · cases d.cachedQValues with
    | none => exact fallback
    | some cached =>
      dsimp only
      split_ifs with long
      · have length : (cached.take n).length = n := List.length_take_of_le long
        have small := argmax_lt (show 0 < (cached.take n).length by omega)
        exact d.take_counted ⟨_, rfl, by omega⟩
      · exact fallback

end DQNBalancer

/-! ## Sticky keys -/

namespace PSA

/-- Whatever the PSA has kept is one of the `count` partitions it was made for. -/
structure Sound (p : PSA F) (count : Nat) : Prop where
  bindings : p.bindings.Holds fun part => part < count
  free : ∀ id ∈ p.free, id < count
  shards : p.shards.length = count
  numPartitions : p.numPartitions = count

section Keep

omit [FloatArith F]

variable {p : PSA F} {count : Nat}

theorem sound_new (count : Nat) : (new count : PSA F).Sound count where
  bindings := Lru.holds_empty _ _
  free _ member := List.mem_range.mp member
  shards := List.length_replicate
  numPartitions := rfl

theorem Sound.withBindings (sound : p.Sound count) {bindings : Lru Bytes Nat}
    (holds : bindings.Holds fun part => part < count) :
    Sound { p with bindings := bindings } count where
  bindings := holds
  free := sound.free
  shards := sound.shards
  numPartitions := sound.numPartitions

theorem Sound.storeFree (sound : p.Sound count) {id : Nat} (small : id < count) :
    (p.storeFree id).Sound count where
  bindings := sound.bindings
  free other member := by
    unfold PSA.storeFree at member
    dsimp only at member
    split_ifs at member
    · exact sound.free other member
    · rcases List.mem_cons.mp member with rfl | old
      · exact small
      · exact sound.free other old
  shards := sound.shards
  numPartitions := sound.numPartitions

theorem Sound.setShard (sound : p.Sound count) (id : Nat) (shard : PsaShard) :
    (p.setShard id shard).Sound count where
  bindings := sound.bindings
  free := sound.free
  shards := (List.length_set ..).trans sound.shards
  numPartitions := sound.numPartitions

theorem Sound.lt_of_shard (sound : p.Sound count) {id : Nat} {shard : PsaShard}
    (there : p.shards[id]? = some shard) : id < count := by
  obtain ⟨inside, -⟩ := List.getElem?_eq_some_iff.mp there
  rw [← sound.shards]
  exact inside

theorem removeFromReverseIndex_cases {motive : PSA F → Prop} (p : PSA F) (key : Bytes) (partID : Nat)
    (absent : p.shards[partID]? = none → motive p)
    (emptied : ∀ shard, p.shards[partID]? = some shard →
      shard.keys.filter (fun k => k ≠ key) = [] →
      motive ((p.setShard partID { shard with keys := [] }).storeFree partID))
    (left : ∀ shard, p.shards[partID]? = some shard →
      shard.keys.filter (fun k => k ≠ key) ≠ [] →
      motive (p.setShard partID { shard with keys := shard.keys.filter fun k => k ≠ key })) :
    motive (p.removeFromReverseIndex key partID) := by
  unfold PSA.removeFromReverseIndex
  cases there : p.shards[partID]? with
  | none => exact absent there
  | some shard =>
    dsimp only
    split_ifs with last
    · rw [last]
      exact emptied shard there last
    · exact left shard there last

theorem Sound.removeFromReverseIndex (sound : p.Sound count) (key : Bytes) (partID : Nat) :
    (p.removeFromReverseIndex key partID).Sound count := by
  refine removeFromReverseIndex_cases (motive := fun q => q.Sound count) p key partID ?_ ?_ ?_
  · exact fun _ => sound
  · intro shard there _
    exact (sound.setShard partID _).storeFree (sound.lt_of_shard there)
  · intro shard _ _
    exact sound.setShard partID _

theorem Sound.onEvict (sound : p.Sound count) (evicted : Option (Bytes × Nat)) :
    (p.onEvict evicted).Sound count := by
  rcases evicted with _ | ⟨key, partID⟩
  · exact sound
  · exact sound.removeFromReverseIndex key partID

theorem Sound.bind (sound : p.Sound count) (key : Bytes) {part : Nat} (small : part < count)
    (now : Int) : (p.bind key part now).1 = true ∧ (p.bind key part now).2.Sound count := by
  have added := (sound.withBindings (sound.bindings.add key small)).onEvict
    (p.bindings.add key part).1
  unfold PSA.bind
  dsimp only
  generalize PSA.onEvict { p with bindings := (p.bindings.add key part).2 }
    (p.bindings.add key part).1 = q at added
  have inside : part < q.shards.length := by
    rw [added.shards]
    exact small
  rw [List.getElem?_eq_getElem inside]
  exact ⟨rfl, added.setShard part _⟩

theorem Sound.bindTo (sound : p.Sound count) (key : Bytes) {part : Nat} (small : part < count)
    (now : Int) :
    ValidChoice count (p.bindTo key part now).1 ∧ (p.bindTo key part now).2.Sound count := by
  obtain ⟨bound, kept⟩ := sound.bind key small now
  unfold PSA.bindTo
  dsimp only
  rw [if_pos bound]
  exact ⟨⟨part, rfl, small⟩, kept⟩

theorem Sound.unbind (sound : p.Sound count) (id : Nat) (key : Bytes) :
    (unbind id p key).Sound count := by
  unfold PSA.unbind
  split_ifs
  · exact (sound.withBindings (sound.bindings.remove key)).onEvict _
  · exact sound

theorem Sound.releasePartition (sound : p.Sound count) (id : Nat) (env : PsaEnv) :
    (p.releasePartition id env).Sound count := by
  unfold PSA.releasePartition
  cases there : p.shards[id]? with
  | none => exact sound
  | some shard =>
    have small := sound.lt_of_shard there
    dsimp only
    split_ifs
    · exact sound
    · exact sound.storeFree small
    · refine Sound.storeFree ?_ small
      exact Runs.invariant_final (fun (p : PSA F) key (sound : p.Sound count) => sound.unbind id key)
        _ _ (sound.setShard id _)

theorem Sound.stealOneBinding (sound : p.Sound count) (src dst : Nat) (env : PsaEnv) :
    (p.stealOneBinding src dst env).Sound count := by
  unfold PSA.stealOneBinding
  by_cases outside : p.shards.length ≤ dst
  · rw [if_pos outside]
    exact sound
  · rw [if_neg outside]
    have small : dst < count := by
      rw [← sound.shards]
      omega
    cases p.shards[src]? with
    | none => exact sound
    | some shard =>
      dsimp only
      split_ifs
      · exact sound
      · exact (((sound.setShard src _).unbind src _).bind _ small env.now).2

end Keep

variable {p : PSA F} {count : Nat}

/-- The ways a `SelectPartition` goes: the key is bound, a division by zero panics, a
free partition is claimed, or none is and the key's hash decides. -/
theorem selectPartition_cases {motive : Option Nat × PSA F → Prop} (p : PSA F) (key : Bytes)
    (n : Nat) (env : PsaEnv)
    (hit : ∀ part, p.bindings.peek key = some part →
      motive (some part, { p with bindings := (p.bindings.get key).2 }))
    (stuck : p.numPartitions = 0 ∨ (UInt64.ofNat n = 0 ∧
      ∀ part ∈ p.free, p.bestFree (env.draw % p.numPartitions) env ≠ some part) → motive (none, p))
    (claimed : ∀ part, p.bindings.peek key = none → part ∈ p.free →
      p.bestFree (env.draw % p.numPartitions) env = some part →
      motive (bindTo { p with free := p.free.filter fun other => other ≠ part } key part env.now))
    (hashed : p.bindings.peek key = none → UInt64.ofNat n ≠ 0 →
      (∀ part ∈ p.free, p.bestFree (env.draw % p.numPartitions) env ≠ some part) →
      motive (p.bindTo key (hashKey key % UInt64.ofNat n).toNat env.now)) :
    motive (p.selectPartition key n env) := by
  unfold selectPartition
  cases found : p.bindings.peek key with
  | some part =>
    have looked : p.bindings.get key = (some part, (p.bindings.get key).2) := by
      rw [← found, ← Lru.get_fst]
    rw [looked]
    exact hit part found
  | none =>
    have looked : p.bindings.get key = (none, (p.bindings.get key).2) := by
      rw [← found, ← Lru.get_fst]
    rw [looked]
    by_cases zero : p.numPartitions = 0
    · simpa only [intN, if_pos zero] using stuck (Or.inl zero)
    · simp only [intN, if_neg zero, claimFreePartition]
      have unclaimed (none : ∀ part ∈ p.free,
          p.bestFree (env.draw % p.numPartitions) env ≠ some part) :
          motive (if UInt64.ofNat n = 0 then (Option.none, p)
            else p.bindTo key (hashKey key % UInt64.ofNat n).toNat env.now) := by
        split_ifs with empty
        · exact stuck (Or.inr ⟨empty, none⟩)
        · exact hashed found empty none
      cases best : p.bestFree (env.draw % p.numPartitions) env with
      | none => exact unclaimed fun part _ => by simp [best]
      | some id =>
        by_cases member : id ∈ p.free
        · simpa only [if_pos member] using claimed id found member best
        · simp only [if_neg member]
          refine unclaimed fun part free => ?_
          rw [best]
          exact fun same => member (Option.some.inj same ▸ free)

omit [FloatArith F] in
theorem Sound.claim (sound : p.Sound count) (part : Nat) :
    Sound { p with free := p.free.filter fun other => other ≠ part } count where
  bindings := sound.bindings
  free other member := sound.free other (List.mem_of_mem_filter member)
  shards := sound.shards
  numPartitions := sound.numPartitions

theorem Sound.selectPartition_valid (sound : p.Sound count) (positive : 1 ≤ count)
    (fits : count < 2 ^ 63) (key : Bytes) (env : PsaEnv) :
    ValidChoice count (p.selectPartition key count env).1 := by
  refine selectPartition_cases (motive := fun result => ValidChoice count result.1)
    p key count env ?_ ?_ ?_ ?_
  · intro part found
    exact ⟨part, rfl, sound.bindings.of_peek found⟩
  · rintro (zero | ⟨zero, -⟩)
    · rw [sound.numPartitions] at zero
      omega
    · exact absurd zero (uint64_ne_zero positive fits)
  · intro part _ free _
    exact ((sound.claim part).bindTo key (sound.free part free) env.now).1
  · intro _ nonzero _
    exact (sound.bindTo key (mod_toNat_lt _ nonzero) env.now).1

theorem Sound.selectPartition (sound : p.Sound count) (key : Bytes) (env : PsaEnv) :
    (p.selectPartition key count env).2.Sound count := by
  refine selectPartition_cases (motive := fun result => result.2.Sound count)
    p key count env ?_ ?_ ?_ ?_
  · intro part _
    exact sound.withBindings (sound.bindings.get key).1
  · intro _
    exact sound
  · intro part _ free _
    exact ((sound.claim part).bindTo key (sound.free part free) env.now).2
  · intro _ nonzero _
    exact (sound.bindTo key (mod_toNat_lt _ nonzero) env.now).2

theorem onMetrics_keeps {motive : PSA F → Prop} (m : Metrics F) (env : MetricsEnv)
    (loaded : motive { p with loads := some m.partitionLoads })
    (release : ∀ (p : PSA F) id env, motive p → motive (p.releasePartition id env))
    (steal : ∀ (p : PSA F) src dst env, motive p → motive (p.stealOneBinding src dst env)) :
    motive (p.onMetrics m env) := by
  have drain : ∀ (p : PSA F) (entry : Int × Nat), motive p → motive
      (if entry.1 = 0 then p.releasePartition entry.2 (env.drained entry.2) else p) := by
    intro p entry holds
    split_ifs
    · exact release _ _ _ holds
    · exact holds
  have drained := Runs.invariant_final drain m.queueDepth.zipIdx _ loaded
  unfold PSA.onMetrics
  dsimp only
  split_ifs
  · refine Runs.invariant_final ?_ _ _ (Runs.invariant_final ?_ _ _ drained)
    · intro p entry holds
      split_ifs
      · exact holds
      · exact holds
      · cases donor m (avgLoad m.partitionLoads) entry.2 with
        | none => exact holds
        | some j => exact steal _ _ _ _ holds
    · intro p entry holds
      split_ifs
      · exact release _ _ _ holds
      · exact holds
  · exact drained

theorem Sound.onMetrics (sound : p.Sound count) (m : Metrics F) (env : MetricsEnv) :
    (p.onMetrics m env).Sound count :=
  onMetrics_keeps (motive := fun p => p.Sound count) m env
    ⟨sound.bindings, sound.free, sound.shards, sound.numPartitions⟩
    (fun _ id env sound => sound.releasePartition id env)
    (fun _ src dst env sound => sound.stealOneBinding src dst env)

end PSA

/-! ## Runs -/

inductive PsaEvent (F : Type) where
  | select (key : Bytes) (numPartitions : Nat) (env : PsaEnv)
  | metrics (m : Metrics F) (env : PSA.MetricsEnv)

namespace PSA

def step (p : PSA F) : PsaEvent F → PSA F
  | .select key numPartitions env => (p.selectPartition key numPartitions env).2
  | .metrics m env => p.onMetrics m env

/-- Topics have as many partitions as the PSA was made for. -/
def ServesOwn (count : Nat) (_ : PSA F) : PsaEvent F → Prop
  | .select _ numPartitions _ => numPartitions = count
  | .metrics _ _ => True

instance servesOwnDecidable (count : Nat) (p : PSA F) : ∀ event, Decidable (ServesOwn count p event)
  | .select _ numPartitions _ => inferInstanceAs (Decidable (numPartitions = count))
  | .metrics _ _ => isTrue trivial

theorem Sound.step {p : PSA F} {count : Nat} (sound : p.Sound count) {event : PsaEvent F}
    (own : ServesOwn count p event) : (p.step event).Sound count := by
  cases event with
  | select key numPartitions env =>
    obtain rfl : numPartitions = count := own
    exact sound.selectPartition key env
  | metrics m env => exact sound.onMetrics m env

end PSA

/-- For a topic with `n` partitions round robin, two choices and DQN choose one of
them in every state; so does a PSA made for `n` partitions, in every state of a
run in which all topics have as many. -/
theorem balancers_choose_valid (F : Type) [FloatArith F] (n : Nat) (positive : 1 ≤ n)
    (fits : n < 2 ^ 63) :
    (∀ rr : RoundRobin F, ValidChoice n (rr.selectPartition n).1) ∧
    (∀ (p : PowerOfTwoChoices F) (draws : Draws F),
      ValidChoice n (p.selectPartition n draws).1) ∧
    (∀ (d : DQNBalancer F) (draws : Draws F), ValidChoice n (d.selectPartition n draws).1) ∧
    (∀ events : List (PsaEvent F),
      Runs.Guarded PSA.step (PSA.ServesOwn n) (PSA.new n) events →
        ∀ p ∈ Runs.states PSA.step (PSA.new n) events, ∀ (key : Bytes) (env : PsaEnv),
          ValidChoice n (p.selectPartition key n env).1) := by
  refine ⟨fun rr => rr.selectPartition_valid positive fits,
    fun p draws => (p.selectPartition_counted positive draws).valid,
    fun d draws => (d.selectPartition_counted positive fits draws).valid, ?_⟩
  intro events own p member key env
  have sound := Runs.invariant_states
    (fun (p : PSA F) event (sound : p.Sound n) own => sound.step own)
    events _ (PSA.sound_new n) own p member
  exact sound.selectPartition_valid positive fits key env

/-- Rational numbers in the place of `float64`. -/
instance ratFloatArith : FloatArith Rat where
  lt a b := decide (a < b)
  eq a b := decide (a = b)
  add a b := a + b
  sub a b := a - b
  mul a b := a * b
  div a b := a / b
  ofInt n := n
  literal q := q
  maxFloat := (2 ^ 53 - 1) * 2 ^ 971

/-- Maps are walked in the order of their lists. -/
def listOrder (α : Type) : MapOrder α where
  arrange entries := entries
  perm entries := .refl entries

def psaEnv (now : Int) (draw : Nat) : PsaEnv where
  now := now
  draw := draw
  first := listOrder Nat
  second := listOrder Nat
  keys := listOrder Bytes

/-- The key `k` for a topic of four partitions, and metrics that release it. -/
def ownTopics : List (PsaEvent Rat) :=
  [.select [107] 4 (psaEnv 1 0),
    .metrics { partitionLoads := [1, 1, 0, 1], queueDepth := [3, 3, 0, 3], msgRate := 0,
               throughput := 0 }
      { drained := fun _ => psaEnv 1000000000 0, overloaded := fun _ => psaEnv 1000000000 0,
        idle := fun _ => psaEnv 1000000000 0 },
    .select [107] 4 (psaEnv 1000000001 0)]

theorem balancers_choose_valid_four :
    ValidChoice 4 ((Runs.final PSA.step (PSA.new 4) ownTopics).selectPartition [108] 4
      (psaEnv 1000000002 1)).1 :=
  (balancers_choose_valid Rat 4 (by decide) (by decide)).2.2.2 ownTopics (by decide) _
    (Runs.final_mem_states PSA.step ownTopics _) [108] (psaEnv 1000000002 1)

/-- A PSA for four partitions binds a key of a topic with four to partition 2, and
answers with it for a topic with two.  One for two partitions indexes out of range
when it serves a topic with four. -/
theorem psa_leaves_range :
    let bound := (PSA.new 4 : PSA Rat).selectPartition [107] 4 (psaEnv 1 0)
    let other := bound.2.selectPartition [107] 2 (psaEnv 2 0)
    let small := (PSA.new 2 : PSA Rat).selectPartition [107] 4 (psaEnv 1 0)
    bound.1 = some 2 ∧ other.1 = some 2 ∧ small.1 = none ∧
    ¬ ValidChoice 2 other.1 ∧ ¬ ValidChoice 4 small.1 := by
  decide +kernel

end NyaQueue
