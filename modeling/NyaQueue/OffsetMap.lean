import NyaQueue.OffsetStore
import NyaQueue.Lib.Runs

/-!
# The offset store as a map

What the store is for: a map from topic, partition and group to the offset last
committed.  The store flattens the triple to one key, and `CommitFloor` and
`DeleteTopic` select keys by how they start.  It is the map it should be as
long as no topic in use is another one followed by a slash and more.
-/

set_option autoImplicit false

namespace NyaQueue

/-- The map: the offset last committed for each triple. -/
abbrev Offsets := Bytes → Int → Bytes → Option Int64

inductive StoreOp where
  | commit (group topic : Bytes) (partition : Int) (offset : Int64) (now : Time) (written : Bool)
  | load (group topic : Bytes) (partition : Int)
  | commitFloor (topic : Bytes) (partition : Int)
  | deleteTopic (topic : Bytes) (flushed : Bool)

namespace StoreOp

def topic : StoreOp → Bytes
  | .commit _ topic _ _ _ _ => topic
  | .load _ topic _ => topic
  | .commitFloor topic _ => topic
  | .deleteTopic topic _ => topic

/-- The operation on the store. -/
def run (s : OffsetStore) : StoreOp → OffsetStore
  | .commit group topic partition offset now written =>
      (s.commit group topic partition offset now written).2
  | .load _ _ _ => s
  | .commitFloor _ _ => s
  | .deleteTopic topic flushed => s.deleteTopic topic flushed

/-- The operation on the map. -/
def apply (m : Offsets) : StoreOp → Offsets
  | .commit group topic partition offset _ _ => fun t p g =>
      if t = topic ∧ p = partition ∧ g = group then some offset else m t p g
  | .load _ _ _ => m
  | .commitFloor _ _ => m
  | .deleteTopic topic _ => fun t p g => if t = topic then none else m t p g

end StoreOp

namespace Offsets

def empty : Offsets := fun _ _ _ => none

/-- The least offset of all groups that have committed on a partition. -/
def IsFloor (m : Offsets) (topic : Bytes) (partition : Int) (floor : Int64) : Prop :=
  ((∀ group, m topic partition group = none) ∧ floor = 0) ∨
  ((∃ group, m topic partition group = some floor) ∧
    ∀ group offset, m topic partition group = some offset → floor ≤ offset)

end Offsets

/-- What `Load` should say about a triple. -/
def Offsets.answer (m : Offsets) (group topic : Bytes) (partition : Int) :
    Except StoreError Int64 :=
  (m topic partition group).elim (.error (.offsetNotFound topic partition group)) .ok

/-- On the topics given, the store answers as the map does. -/
structure Refines (topics : Set Bytes) (s : OffsetStore) (m : Offsets) : Prop where
  load : ∀ topic ∈ topics, ∀ partition group,
    s.load group topic partition = m.answer group topic partition
  floor : ∀ topic ∈ topics, ∀ partition, m.IsFloor topic partition (s.commitFloor topic partition)

/-- No topic is another one followed by a slash and more. -/
def Separate (topics : Set Bytes) : Prop :=
  ∀ topic ∈ topics, ∀ other ∈ topics, ¬ (topic ++ [47]) <+: other

namespace OffsetStore

section Keys

variable {topics : Set Bytes} {topic other group : Bytes} {partition : Int}

theorem topic_of_key (separate : Separate topics) (member : topic ∈ topics)
    (member' : other ∈ topics) {rest : Bytes} (starts : (topic ++ [47]) <+: other ++ 47 :: rest) :
    topic = other := by
  have own : (other ++ [47]) <+: other ++ 47 :: rest := ⟨rest, by simp⟩
  rcases List.prefix_or_prefix_of_prefix starts own with shorter | longer
  · rcases List.prefix_concat_iff.mp shorter with same | inside
    · exact (List.append_inj_left' same rfl)
    · exact absurd inside (separate topic member other member')
  · rcases List.prefix_concat_iff.mp longer with same | inside
    · exact (List.append_inj_left' same rfl).symm
    · exact absurd inside (separate other member' topic member)

theorem bucketKey_injective_of_separate (separate : Separate topics) (member : topic ∈ topics)
    (member' : other ∈ topics) {group' : Bytes} {partition' : Int}
    (same : bucketKey topic partition group = bucketKey other partition' group') :
    topic = other ∧ partition = partition' ∧ group = group' := by
  have starts : (topic ++ [47]) <+: other ++ 47 :: (Decimal.ofInt partition' ++ 47 :: group') := by
    refine ⟨Decimal.ofInt partition ++ 47 :: group, ?_⟩
    rw [List.append_assoc]
    exact same
  obtain rfl := topic_of_key separate member member' starts
  exact ⟨rfl, bucketKey_injective same⟩

theorem bucketKey_starts (topic : Bytes) (partition : Int) (group : Bytes) :
    (topic ++ [47]) <+: bucketKey topic partition group :=
  ⟨Decimal.ofInt partition ++ 47 :: group, by simp [bucketKey]⟩

end Keys

/-! ## One operation -/

/-- Every cached key belongs to a topic in use, and under the key of a triple
the cache holds what the map holds for it. -/
structure MapInv (topics : Set Bytes) (s : OffsetStore) (m : Offsets) : Prop where
  known : ∀ key ∈ s.cache, ∃ topic ∈ topics, ∃ partition group,
    key = bucketKey topic partition group
  agrees : ∀ topic ∈ topics, ∀ partition group,
    s.cache.lookup (bucketKey topic partition group) = m topic partition group

section Steps

variable {topics : Set Bytes} {s : OffsetStore} {m : Offsets}

theorem mapInv_commit (separate : Separate topics) (inv : MapInv topics s m)
    {group topic : Bytes} (member : topic ∈ topics) (partition : Int) (offset : Int64)
    (now : Time) (written : Bool) :
    MapInv topics (s.commit group topic partition offset now written).2
      (StoreOp.apply m (.commit group topic partition offset now written)) := by
  constructor
  · intro key cached
    rw [commit_cache, AList.mem_insert] at cached
    rcases cached with rfl | cached
    · exact ⟨topic, member, partition, group, rfl⟩
    · exact inv.known key cached
  · intro topic' member' partition' group'
    rw [commit_cache]
    by_cases same : topic' = topic ∧ partition' = partition ∧ group' = group
    · obtain ⟨rfl, rfl, rfl⟩ := same
      simp [StoreOp.apply]
    · have different : bucketKey topic' partition' group' ≠ bucketKey topic partition group :=
        fun keys => same (bucketKey_injective_of_separate separate member' member keys)
      rw [AList.lookup_insert_ne different, inv.agrees topic' member']
      simp only [StoreOp.apply, if_neg same]

theorem mapInv_deleteTopic (separate : Separate topics) (inv : MapInv topics s m)
    {topic : Bytes} (member : topic ∈ topics) (flushed : Bool) :
    MapInv topics (s.deleteTopic topic flushed) (StoreOp.apply m (.deleteTopic topic flushed)) := by
  constructor
  · intro key cached
    apply inv.known key
    rw [← AList.lookup_isSome] at cached ⊢
    by_cases starts : (topic ++ [47]) <+: key
    · rw [s.deleteTopic_lookup_starts starts] at cached
      cases cached
    · rw [s.deleteTopic_lookup_other starts] at cached
      exact cached
  · intro topic' member' partition group
    by_cases same : topic' = topic
    · subst same
      rw [s.deleteTopic_lookup_starts (bucketKey_starts ..)]
      simp only [StoreOp.apply, if_true]
    · have other : ¬ (topic ++ [47]) <+: bucketKey topic' partition group :=
        fun starts => same (topic_of_key separate member member' starts).symm
      rw [s.deleteTopic_lookup_other other, inv.agrees topic' member']
      simp only [StoreOp.apply, if_neg same]

theorem mapInv_run (separate : Separate topics) (inv : MapInv topics s m) {op : StoreOp}
    (member : op.topic ∈ topics) : MapInv topics (op.run s) (op.apply m) := by
  cases op with
  | commit group topic partition offset now written =>
    exact mapInv_commit separate inv member partition offset now written
  | load group topic partition => exact inv
  | commitFloor topic partition => exact inv
  | deleteTopic topic flushed => exact mapInv_deleteTopic separate inv member flushed

end Steps

/-! ## What the store answers -/

theorem foldl_least_mem (offsets : List Int64) (least : Int64) :
    offsets.foldl (fun least off => if off < least then off else least) least = least ∨
      offsets.foldl (fun least off => if off < least then off else least) least ∈ offsets := by
  induction offsets generalizing least with
  | nil => exact .inl rfl
  | cons first rest ih =>
    rw [List.foldl_cons]
    rcases ih (if first < least then first else least) with same | inside
    · rw [same]
      split
      · exact .inr List.mem_cons_self
      · exact .inl rfl
    · exact .inr (List.mem_cons_of_mem first inside)

theorem le_maxInt64 (offset : Int64) : offset ≤ maxInt64 := by
  have bound := offset.toInt_lt
  have top : maxInt64.toInt = 2 ^ 63 - 1 := rfl
  rw [Int64.le_iff_toInt_le, top]
  omega

theorem commitFloor_isLeast {s : OffsetStore} {topic : Bytes} {partition : Int}
    (nonempty : s.committed topic partition ≠ []) :
    s.commitFloor topic partition ∈ s.committed topic partition ∧
      ∀ off ∈ s.committed topic partition, s.commitFloor topic partition ≤ off := by
  have below := (foldl_least_le (s.committed topic partition) maxInt64).2
  rw [commitFloor, if_neg nonempty]
  refine ⟨?_, below⟩
  rcases foldl_least_mem (s.committed topic partition) maxInt64 with same | inside
  · obtain ⟨off, member⟩ := List.exists_mem_of_ne_nil _ nonempty
    have least := below off member
    rw [same] at least ⊢
    rw [Int64.le_antisymm least (le_maxInt64 off)]
    exact member
  · exact inside

section Answers

variable {topics : Set Bytes} {s : OffsetStore} {m : Offsets} {topic : Bytes}

theorem mem_committed_iff (separate : Separate topics) (inv : MapInv topics s m)
    (member : topic ∈ topics) (partition : Int) (offset : Int64) :
    offset ∈ s.committed topic partition ↔ ∃ group, m topic partition group = some offset := by
  constructor
  · intro committed
    obtain ⟨entry, inside, rfl⟩ := List.mem_map.mp committed
    obtain ⟨cached, starts⟩ := List.mem_filter.mp inside
    have found : s.cache.lookup entry.1 = some entry.2 := AList.mem_lookup_iff.mpr cached
    have present : entry.1 ∈ s.cache := by
      rw [← AList.lookup_isSome, found]
      rfl
    obtain ⟨other, member', partition', group, key⟩ := inv.known entry.1 present
    rw [key] at starts found
    have own := List.isPrefixOf_iff_prefix.mp starts
    have topics' : (topic ++ [47]) <+: bucketKey other partition' group :=
      List.IsPrefix.trans (bucketKey_starts topic partition []) own
    obtain rfl := topic_of_key separate member member' topics'
    obtain rfl := (bucketKey_isPrefixOf_iff ..).mp starts
    rw [inv.agrees topic member] at found
    exact ⟨group, found⟩
  · rintro ⟨group, stored⟩
    apply load_mem_committed
    rw [load, inv.agrees topic member, stored]

theorem MapInv.refines (separate : Separate topics) (inv : MapInv topics s m) :
    Refines topics s m := by
  constructor
  · intro topic member partition group
    rw [load, inv.agrees topic member, Offsets.answer]
    cases m topic partition group <;> rfl
  · intro topic member partition
    by_cases nothing : s.committed topic partition = []
    · refine .inl ⟨?_, by rw [commitFloor, if_pos nothing]⟩
      intro group
      cases stored : m topic partition group with
      | none => rfl
      | some offset =>
        have inside := (mem_committed_iff separate inv member partition offset).mpr
          ⟨group, stored⟩
        rw [nothing] at inside
        cases inside
    · obtain ⟨inside, least⟩ := commitFloor_isLeast nothing
      refine .inr ⟨(mem_committed_iff separate inv member partition _).mp inside, ?_⟩
      intro group offset stored
      exact least offset ((mem_committed_iff separate inv member partition offset).mpr
        ⟨group, stored⟩)

end Answers

/-! ## Whole sequences -/

theorem mapInv_final {topics : Set Bytes} (separate : Separate topics) (ops : List StoreOp)
    (s : OffsetStore) (m : Offsets) (inv : MapInv topics s m)
    (inside : ∀ op ∈ ops, op.topic ∈ topics) :
    MapInv topics (Runs.final StoreOp.run s ops) (Runs.final StoreOp.apply m ops) := by
  induction ops generalizing s m with
  | nil => exact inv
  | cons op rest ih =>
    rw [Runs.final_cons, Runs.final_cons]
    apply ih
    · exact mapInv_run separate inv (inside op List.mem_cons_self)
    · exact fun later member => inside later (List.mem_cons_of_mem op member)

theorem mapInv_empty (topics : Set Bytes) (dumpInterval : Int) :
    MapInv topics (empty dumpInterval) Offsets.empty where
  known key cached := absurd cached (AList.notMem_empty key)
  agrees _ _ _ _ := rfl

/-- On a set of topics the store is the map, after every sequence of operations,
exactly when no topic of the set is another one followed by a slash. -/
theorem refines_map_iff_separate (topics : Set Bytes) (dumpInterval : Int) :
    (∀ ops : List StoreOp, (∀ op ∈ ops, op.topic ∈ topics) →
      Refines topics (Runs.final StoreOp.run (empty dumpInterval) ops)
        (Runs.final StoreOp.apply Offsets.empty ops)) ↔ Separate topics := by
  constructor
  · intro refines topic member other member' starts
    -- deleting the shorter topic takes a commit on the longer one along
    have observed := (refines [.commit [] other 0 5 0 true, .deleteTopic topic true] (by
      intro op inside
      rcases List.mem_cons.mp inside with rfl | inside
      · exact member'
      · rw [List.mem_singleton.mp inside]
        exact member)).load other member' 0 []
    have different : other ≠ topic := by
      rintro rfl
      have longer := starts.length_le
      simp at longer
    have deleted : (topic ++ [47]) <+: bucketKey other 0 [] := by
      refine starts.trans ?_
      exact ⟨47 :: (Decimal.ofInt 0 ++ [47]), rfl⟩
    simp only [Runs.final, List.foldl_cons, List.foldl_nil, StoreOp.run, StoreOp.apply, load,
      deleteTopic_lookup_starts _ deleted, Offsets.answer, if_neg different, and_self, if_true,
      Option.elim_some, reduceCtorEq] at observed
  · intro separate ops inside
    exact (mapInv_final separate ops _ _ (mapInv_empty topics dumpInterval) inside).refines separate

/-- The offset that group `2/g` committed on partition 1 of topic `a` is
overwritten by a commit of group `g` on partition 2 of topic `a/1`. -/
theorem slash_in_topic_collides :
    let ops : List StoreOp :=
      [.commit [50, 47, 103] [97] 1 5 0 true, .commit [103] [97, 47, 49] 2 9 0 true]
    let s := Runs.final StoreOp.run (empty 0) ops
    s.load [50, 47, 103] [97] 1 = .ok 9 ∧
    ¬ Refines Set.univ s (Runs.final StoreOp.apply Offsets.empty ops) := by
  intro ops s
  have collided : s.load [50, 47, 103] [97] 1 = .ok 9 := by decide
  refine ⟨collided, ?_⟩
  intro refines
  have observed := refines.load [97] trivial 1 [50, 47, 103]
  rw [collided] at observed
  simp [ops, Runs.final, StoreOp.apply, Offsets.answer] at observed

end OffsetStore

end NyaQueue
