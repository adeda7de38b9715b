import NyaQueue.OffsetStore
import NyaQueue.Lib.Runs

/-!
# What the offset store keeps across a restart

Commits, deletions, expiry and dumps in any order, the scan of a dump taking
one key at a time; then `Close`, and `NewOffsetStore` on the database that is
left.  The cache is all `Load` looks at, so the question is whether the cache
that is read back is the cache there was.
-/

set_option autoImplicit false

namespace NyaQueue

open BigEndian

/-- A store with the batch of the dump that is under way. -/
structure StoreRun where
  store : OffsetStore
  pending : AList fun _ : Bytes => Bytes

inductive StoreEvent where
  | commit (group topic : Bytes) (partition : Int) (offset : Int64) (now : Time) (written : Bool)
  | deleteTopic (topic : Bytes) (flushed : Bool)
  | expireSessions (now : Time) (timeout : Int)
  | dumpVisit (key : Bytes)
  | dumpFlush (flushed : Bool)

/-- The offset that a database holds for a key of the cache. -/
def storedOffset (db : AList fun _ : Bytes => Bytes) (key : Bytes) : Option Int64 :=
  (db.lookup (badgerKey key)).bind fun val =>
    if val.length = 8 then some (uint64 val).toInt64 else none

/-! ## The database as a map of offsets -/

variable {key : Bytes} {db : AList fun _ : Bytes => Bytes}

theorem badgerKey_injective {key' : Bytes} (same : badgerKey key = badgerKey key') :
    key = key' :=
  List.append_cancel_left same

theorem storedOffset_insert_self (db : AList fun _ : Bytes => Bytes) (key : Bytes)
    (offset : Int64) :
    storedOffset (db.insert (badgerKey key) (putUint64 offset.toUInt64)) key = some offset := by
  have read := uint64_put offset.toUInt64 []
  rw [List.append_nil] at read
  rw [storedOffset, AList.lookup_insert, Option.bind_some, if_pos (putUint64_length _), read,
    Int64.toInt64_toUInt64]

theorem storedOffset_insert_ne (db : AList fun _ : Bytes => Bytes) {key' : Bytes}
    (different : key' ≠ key) (val : Bytes) :
    storedOffset (db.insert (badgerKey key) val) key' = storedOffset db key' := by
  have keys : badgerKey key' ≠ badgerKey key := fun same => different (badgerKey_injective same)
  rw [storedOffset, AList.lookup_insert_ne keys]
  rfl

theorem storedOffset_union_left {batch : AList fun _ : Bytes => Bytes}
    (inside : badgerKey key ∈ batch) :
    storedOffset (batch ∪ db) key = storedOffset batch key := by
  rw [storedOffset, AList.lookup_union_left inside]
  rfl

theorem storedOffset_union_right {batch : AList fun _ : Bytes => Bytes}
    (outside : badgerKey key ∉ batch) :
    storedOffset (batch ∪ db) key = storedOffset db key := by
  rw [storedOffset, AList.lookup_union_right outside]
  rfl

theorem storedOffset_of_not_mem (outside : badgerKey key ∉ db) : storedOffset db key = none := by
  rw [storedOffset, AList.lookup_eq_none.mpr outside]
  rfl

theorem storedOffset_eraseAll_of_mem {keys : List Bytes} (inside : key ∈ keys)
    (db : AList fun _ : Bytes => Bytes) :
    storedOffset (Batches.eraseAll (keys.map badgerKey) db) key = none := by
  rw [storedOffset, Batches.lookup_eraseAll_of_mem (List.mem_map_of_mem inside)]
  rfl

theorem storedOffset_eraseAll_of_not_mem {keys : List Bytes} (outside : key ∉ keys)
    (db : AList fun _ : Bytes => Bytes) :
    storedOffset (Batches.eraseAll (keys.map badgerKey) db) key = storedOffset db key := by
  have elsewhere : badgerKey key ∉ keys.map badgerKey := by
    intro member
    obtain ⟨key', inside, same⟩ := List.mem_map.mp member
    exact outside (badgerKey_injective same ▸ inside)
  rw [storedOffset, Batches.lookup_eraseAll_of_not_mem elsewhere]
  rfl

/-! ## Warming the cache -/

theorem warm_lookup_ne {cache : AList fun _ : Bytes => Int64} {entry : Sigma fun _ : Bytes => Bytes}
    (different : entry.1 ≠ badgerKey key) :
    (OffsetStore.warm cache entry).lookup key = cache.lookup key := by
  unfold OffsetStore.warm
  split
  · rename_i valid
    obtain ⟨rest, starts⟩ := List.isPrefixOf_iff_prefix.mp valid.1
    rw [← starts, List.drop_left]
    apply AList.lookup_insert_ne
    rintro rfl
    exact different starts.symm
  · rfl

theorem warm_lookup_self (cache : AList fun _ : Bytes => Int64) (key val : Bytes) :
    (OffsetStore.warm cache ⟨badgerKey key, val⟩).lookup key =
      ((if val.length = 8 then some (uint64 val).toInt64 else none).or (cache.lookup key)) := by
  have starts : offsetsPrefix.isPrefixOf (badgerKey key) = true :=
    List.isPrefixOf_iff_prefix.mpr ⟨key, rfl⟩
  have rest : (badgerKey key).drop offsetsPrefix.length = key := List.drop_left
  simp only [OffsetStore.warm, starts, true_and, rest]
  split
  · rw [AList.lookup_insert]
    rfl
  · rfl

theorem foldl_warm_lookup (entries : List (Sigma fun _ : Bytes => Bytes)) (key : Bytes)
    (cache : AList fun _ : Bytes => Int64) (distinct : entries.NodupKeys) :
    (entries.foldl OffsetStore.warm cache).lookup key =
      (((entries.dlookup (badgerKey key)).bind fun val =>
        if val.length = 8 then some (uint64 val).toInt64 else none).or (cache.lookup key)) := by
  induction entries generalizing cache with
  | nil => simp
  | cons entry rest ih =>
    obtain ⟨fresh, later⟩ := List.nodupKeys_cons.mp distinct
    rw [List.foldl_cons, ih _ later]
    by_cases same : entry.1 = badgerKey key
    · obtain ⟨name, val⟩ := entry
      dsimp only at same fresh
      subst same
      rw [List.dlookup_cons_eq, List.dlookup_eq_none.mpr fresh, warm_lookup_self]
      rfl
    · rw [List.dlookup_cons_ne _ _ (Ne.symm same), warm_lookup_ne same]

theorem newOffsetStore_lookup (db : AList fun _ : Bytes => Bytes) (dumpInterval : Int)
    (key : Bytes) :
    (OffsetStore.newOffsetStore db dumpInterval).cache.lookup key = storedOffset db key := by
  refine (foldl_warm_lookup db.entries key ∅ db.nodupKeys).trans ?_
  rw [AList.lookup_empty, Option.or_none]
  rfl

namespace StoreRun

def start (db : AList fun _ : Bytes => Bytes) (dumpInterval : Int) : StoreRun where
  store := OffsetStore.newOffsetStore db dumpInterval
  pending := ∅

/-- One event; only a store with a dump interval dumps. -/
def step (r : StoreRun) : StoreEvent → StoreRun
  | .commit group topic partition offset now written =>
      { r with store := (r.store.commit group topic partition offset now written).2 }
  | .deleteTopic topic flushed => { r with store := r.store.deleteTopic topic flushed }
  | .expireSessions now timeout => { r with store := r.store.expireSessions now timeout }
  | .dumpVisit key =>
      if 0 < r.store.dumpInterval then { r with pending := r.store.visit r.pending key } else r
  | .dumpFlush flushed =>
      if 0 < r.store.dumpInterval then ⟨r.store.flush r.pending flushed, ∅⟩ else r

/-- The database after `Close`: with a dump interval the dump under way is
finished and followed by a last one. -/
def close (r : StoreRun) : AList fun _ : Bytes => Bytes :=
  if 0 < r.store.dumpInterval then (r.store.flush r.pending true).dump.db else r.store.db

def reopened (r : StoreRun) : OffsetStore :=
  OffsetStore.newOffsetStore r.close r.store.dumpInterval

/-- For every key, what is loaded after a restart is what was loaded before. -/
def Durable (r : StoreRun) : Prop :=
  ∀ key, r.reopened.cache.lookup key = r.store.cache.lookup key

/-- What a step needs: without a dump interval the write of a commit goes
through unless it changes nothing, and no key that is removed from the cache is
in the database afterwards or in the batch of a dump under way. -/
def Persistent (r : StoreRun) : StoreEvent → Prop
  | .commit group topic partition offset _ written =>
      0 < r.store.dumpInterval ∨ written = true ∨
        r.store.cache.lookup (bucketKey topic partition group) = some offset
  | .deleteTopic topic flushed => ∀ key ∈ r.store.topicKeys topic,
      storedOffset r.pending key = none ∧ (flushed = true ∨ storedOffset r.store.db key = none)
  | .expireSessions now timeout => ∀ key ∈ r.store.expiredKeys (now - timeout),
      key ∈ r.store.cache →
        storedOffset r.pending key = none ∧ storedOffset r.store.db key = none
  | .dumpVisit _ => True
  | .dumpFlush _ => True

/-! ## Dumps -/

theorem visit_stored_self (s : OffsetStore) (batch : AList fun _ : Bytes => Bytes) (key : Bytes) :
    storedOffset (s.visit batch key) key = (s.cache.lookup key).or (storedOffset batch key) := by
  unfold OffsetStore.visit
  cases s.cache.lookup key with
  | none => rfl
  | some offset =>
    dsimp only
    rw [storedOffset_insert_self, Option.some_or]

theorem visit_stored_ne (s : OffsetStore) (batch : AList fun _ : Bytes => Bytes)
    {key key' : Bytes} (different : key' ≠ key) :
    storedOffset (s.visit batch key) key' = storedOffset batch key' := by
  unfold OffsetStore.visit
  cases s.cache.lookup key with
  | none => rfl
  | some offset => exact storedOffset_insert_ne batch different _

theorem scan_stored (s : OffsetStore) (keys : List Bytes) (batch : AList fun _ : Bytes => Bytes)
    (key : Bytes) : storedOffset (keys.foldl s.visit batch) key =
      if key ∈ keys then (s.cache.lookup key).or (storedOffset batch key)
      else storedOffset batch key := by
  induction keys generalizing batch with
  | nil => simp
  | cons first rest ih =>
    rw [List.foldl_cons, ih]
    by_cases same : key = first
    · subst same
      rw [visit_stored_self, if_pos List.mem_cons_self]
      cases s.cache.lookup key <;> simp
    · rw [visit_stored_ne s batch same]
      simp only [List.mem_cons, same, false_or]

theorem visit_mem {s : OffsetStore} {batch : AList fun _ : Bytes => Bytes} {key key' : Bytes}
    (inside : badgerKey key' ∈ s.visit batch key) :
    badgerKey key' ∈ batch ∨ key' = key ∧ key ∈ s.cache := by
  unfold OffsetStore.visit at inside
  cases found : s.cache.lookup key with
  | none =>
    rw [found] at inside
    exact .inl inside
  | some offset =>
    rw [found] at inside
    rcases (AList.mem_insert _).mp inside with same | before
    · refine .inr ⟨badgerKey_injective same, ?_⟩
      rw [← AList.lookup_isSome, found]
      rfl
    · exact .inl before

theorem scan_mem (s : OffsetStore) (keys : List Bytes) (batch : AList fun _ : Bytes => Bytes)
    {key : Bytes} (inside : badgerKey key ∈ keys.foldl s.visit batch) :
    badgerKey key ∈ batch ∨ key ∈ s.cache := by
  induction keys generalizing batch with
  | nil => exact .inl inside
  | cons first rest ih =>
    rw [List.foldl_cons] at inside
    rcases ih _ inside with there | cached
    · rcases visit_mem there with before | ⟨rfl, cached⟩
      · exact .inl before
      · exact .inr cached
    · exact .inr cached

theorem dump_stored (s : OffsetStore) (key : Bytes) :
    storedOffset s.dump.db key = (s.cache.lookup key).or (storedOffset s.db key) := by
  have scanned := scan_stored s s.cache.keys ∅ key
  have batch : s.dump.db = s.cache.keys.foldl s.visit ∅ ∪ s.db := rfl
  rw [batch]
  cases found : s.cache.lookup key with
  | none =>
    have absent : key ∉ s.cache := AList.lookup_eq_none.mp found
    have outside : badgerKey key ∉ s.cache.keys.foldl s.visit ∅ := by
      intro inside
      rcases scan_mem s s.cache.keys ∅ inside with nothing | cached
      · exact absurd nothing (AList.notMem_empty _)
      · exact absent cached
    rw [storedOffset_union_right outside, Option.none_or]
  | some offset =>
    have cached : key ∈ s.cache.keys := by
      change key ∈ s.cache
      rw [← AList.lookup_isSome, found]
      rfl
    rw [if_pos cached, found, Option.some_or] at scanned
    have inside : badgerKey key ∈ s.cache.keys.foldl s.visit ∅ := by
      by_contra outside
      rw [storedOffset_of_not_mem outside] at scanned
      cases scanned
    rw [storedOffset_union_left inside, scanned, Option.some_or]

/-! ## The condition, state by state -/

/-- What every run keeps: without a dump interval there is no batch, and a
batch holds offsets only. -/
structure Shape (r : StoreRun) : Prop where
  idle : r.store.dumpInterval ≤ 0 → r.pending = ∅
  whole : ∀ key, badgerKey key ∈ r.pending → storedOffset r.pending key ≠ none

/-- A key that is not cached is neither in the database nor in a batch, and
without a dump interval the database is up to date. -/
structure Covered (r : StoreRun) : Prop where
  gone : ∀ key, r.store.cache.lookup key = none →
    storedOffset r.pending key = none ∧ storedOffset r.store.db key = none
  synced : r.store.dumpInterval ≤ 0 → ∀ key,
    storedOffset r.store.db key = r.store.cache.lookup key

theorem reopened_lookup (r : StoreRun) (key : Bytes) :
    r.reopened.cache.lookup key =
      if 0 < r.store.dumpInterval then
        (r.store.cache.lookup key).or (storedOffset (r.pending ∪ r.store.db) key)
      else storedOffset r.store.db key := by
  rw [reopened, newOffsetStore_lookup, close]
  split
  · exact dump_stored (r.store.flush r.pending true) key
  · rfl

theorem durable_iff_covered {r : StoreRun} (shape : Shape r) : r.Durable ↔ Covered r := by
  unfold Durable
  simp only [reopened_lookup]
  by_cases dumps : 0 < r.store.dumpInterval
  · simp only [if_pos dumps]
    constructor
    · intro durable
      refine ⟨?_, fun idle => absurd dumps (Int.not_lt.mpr idle)⟩
      intro key absent
      have left := durable key
      rw [absent, Option.none_or] at left
      by_cases inside : badgerKey key ∈ r.pending
      · rw [storedOffset_union_left inside] at left
        exact absurd left (shape.whole key inside)
      · rw [storedOffset_union_right inside] at left
        exact ⟨storedOffset_of_not_mem inside, left⟩
    · intro covered key
      cases cached : r.store.cache.lookup key with
      | some offset => rfl
      | none =>
        obtain ⟨pending, stored⟩ := covered.gone key cached
        rw [Option.none_or]
        by_cases inside : badgerKey key ∈ r.pending
        · rw [storedOffset_union_left inside, pending]
        · rw [storedOffset_union_right inside, stored]
  · simp only [if_neg dumps]
    have interval : r.store.dumpInterval ≤ 0 := Int.not_lt.mp dumps
    constructor
    · intro durable
      refine ⟨?_, fun _ => durable⟩
      intro key absent
      refine ⟨?_, (durable key).trans absent⟩
      rw [shape.idle interval]
      exact storedOffset_of_not_mem (AList.notMem_empty _)
    · exact fun covered => covered.synced interval

section Steps

variable {r : StoreRun}

theorem commit_stored_ne (s : OffsetStore) (group topic : Bytes) (partition : Int)
    (offset : Int64) (now : Time) (written : Bool) {key : Bytes}
    (different : key ≠ bucketKey topic partition group) :
    storedOffset (s.commit group topic partition offset now written).2.db key =
      storedOffset s.db key := by
  unfold OffsetStore.commit OffsetStore.writeOne
  dsimp only
  split
  · rfl
  · split
    · exact storedOffset_insert_ne _ different _
    · rfl

theorem commit_stored_self (s : OffsetStore) (group topic : Bytes) (partition : Int)
    (offset : Int64) (now : Time) (written : Bool) (synchronous : s.dumpInterval ≤ 0) :
    storedOffset (s.commit group topic partition offset now written).2.db
        (bucketKey topic partition group) =
      if written then some offset else storedOffset s.db (bucketKey topic partition group) := by
  unfold OffsetStore.commit OffsetStore.writeOne
  dsimp only
  rw [if_neg (Int.not_lt.mpr synchronous)]
  cases written with
  | true => exact storedOffset_insert_self _ _ _
  | false => rfl

theorem commit_dumpInterval (s : OffsetStore) (group topic : Bytes) (partition : Int)
    (offset : Int64) (now : Time) (written : Bool) :
    (s.commit group topic partition offset now written).2.dumpInterval = s.dumpInterval := by
  unfold OffsetStore.commit OffsetStore.writeOne
  dsimp only
  split
  · rfl
  · split <;> rfl

theorem covered_commit_iff (covered : Covered r) (group topic : Bytes) (partition : Int)
    (offset : Int64) (now : Time) (written : Bool) :
    Covered (r.step (.commit group topic partition offset now written)) ↔
      r.Persistent (.commit group topic partition offset now written) := by
  have interval := commit_dumpInterval r.store group topic partition offset now written
  have others : ∀ key, key ≠ bucketKey topic partition group →
      (r.store.commit group topic partition offset now written).2.cache.lookup key =
        r.store.cache.lookup key := by
    intro key different
    rw [OffsetStore.commit_cache, AList.lookup_insert_ne different]
  have own : (r.store.commit group topic partition offset now written).2.cache.lookup
      (bucketKey topic partition group) = some offset := by
    rw [OffsetStore.commit_cache, AList.lookup_insert]
  constructor
  · intro after
    by_cases dumps : 0 < r.store.dumpInterval
    · exact .inl dumps
    · have synchronous := Int.not_lt.mp dumps
      have up_to_date := after.synced (interval.trans_le synchronous)
        (bucketKey topic partition group)
      simp only [step] at up_to_date
      rw [own, commit_stored_self _ _ _ _ _ _ _ synchronous] at up_to_date
      cases written with
      | true => exact .inr (.inl rfl)
      | false => exact .inr (.inr ((covered.synced synchronous _).symm.trans up_to_date))
  · intro persistent
    constructor
    · intro key absent
      have different : key ≠ bucketKey topic partition group := by
        rintro rfl
        simp only [step] at absent
        rw [own] at absent
        cases absent
      simp only [step] at absent ⊢
      rw [others key different] at absent
      rw [commit_stored_ne _ _ _ _ _ _ _ different]
      exact covered.gone key absent
    · intro synchronous key
      have synchronous' : r.store.dumpInterval ≤ 0 := interval.symm.trans_le synchronous
      simp only [step]
      by_cases same : key = bucketKey topic partition group
      · subst same
        rw [own, commit_stored_self _ _ _ _ _ _ _ synchronous']
        rcases persistent with dumps | rfl | unchanged
        · exact absurd dumps (Int.not_lt.mpr synchronous')
        · rfl
        · rw [covered.synced synchronous', unchanged, ite_self]
      · rw [others key same, commit_stored_ne _ _ _ _ _ _ _ same]
        exact covered.synced synchronous' key

theorem covered_remove_iff (covered : Covered r) (store' : OffsetStore) {removed : List Bytes}
    (interval : store'.dumpInterval = r.store.dumpInterval)
    (erased : ∀ key ∈ removed, store'.cache.lookup key = none)
    (kept : ∀ key, key ∉ removed → store'.cache.lookup key = r.store.cache.lookup key ∧
      storedOffset store'.db key = storedOffset r.store.db key) :
    Covered { r with store := store' } ↔ ∀ key ∈ removed,
      storedOffset r.pending key = none ∧ storedOffset store'.db key = none := by
  constructor
  · intro after key inside
    exact after.gone key (erased key inside)
  · intro forgotten
    constructor
    · intro key absent
      by_cases inside : key ∈ removed
      · exact forgotten key inside
      · obtain ⟨cache, db⟩ := kept key inside
        obtain ⟨pending, stored⟩ := covered.gone key (cache.symm.trans absent)
        exact ⟨pending, db.trans stored⟩
    · intro synchronous key
      by_cases inside : key ∈ removed
      · exact (forgotten key inside).2.trans (erased key inside).symm
      · obtain ⟨cache, db⟩ := kept key inside
        exact db.trans ((covered.synced (interval.symm.trans_le synchronous) key).trans cache.symm)

theorem covered_deleteTopic_iff (covered : Covered r) (topic : Bytes) (flushed : Bool) :
    Covered (r.step (.deleteTopic topic flushed)) ↔ r.Persistent (.deleteTopic topic flushed) := by
  have stored : ∀ key ∈ r.store.topicKeys topic,
      (storedOffset (r.store.deleteTopic topic flushed).db key = none ↔
        flushed = true ∨ storedOffset r.store.db key = none) := by
    intro key inside
    cases flushed with
    | true => simpa [OffsetStore.deleteTopic] using storedOffset_eraseAll_of_mem inside r.store.db
    | false => simp [OffsetStore.deleteTopic]
  have removed := covered_remove_iff covered (r.store.deleteTopic topic flushed) rfl
    (fun key inside => r.store.deleteTopic_lookup_starts
      ((r.store.mem_topicKeys topic key).mp inside).2 flushed) (by
      intro key outside
      refine ⟨Batches.lookup_eraseAll_of_not_mem outside _, ?_⟩
      cases flushed with
      | true => exact storedOffset_eraseAll_of_not_mem outside r.store.db
      | false => rfl)
  refine removed.trans ⟨?_, ?_⟩
  · intro forgotten key inside
    exact ⟨(forgotten key inside).1, (stored key inside).mp (forgotten key inside).2⟩
  · intro persistent key inside
    exact ⟨(persistent key inside).1, (stored key inside).mpr (persistent key inside).2⟩

theorem covered_expireSessions_iff (covered : Covered r) (now : Time) (timeout : Int) :
    Covered (r.step (.expireSessions now timeout)) ↔ r.Persistent (.expireSessions now timeout) := by
  have removed := covered_remove_iff covered (r.store.expireSessions now timeout) rfl
    (fun key inside => Batches.lookup_eraseAll_of_mem inside r.store.cache)
    (fun key outside => ⟨Batches.lookup_eraseAll_of_not_mem outside r.store.cache, rfl⟩)
  refine removed.trans ⟨?_, ?_⟩
  · exact fun forgotten key inside _ => forgotten key inside
  · intro persistent key inside
    by_cases cached : key ∈ r.store.cache
    · exact persistent key inside cached
    · exact covered.gone key (AList.lookup_eq_none.mpr cached)

theorem covered_dumpVisit (covered : Covered r) (key : Bytes) :
    Covered (r.step (.dumpVisit key)) := by
  simp only [step]
  split
  · refine ⟨?_, covered.synced⟩
    intro key' absent
    refine ⟨?_, (covered.gone key' absent).2⟩
    by_cases same : key' = key
    · subst same
      have nothing : r.store.cache.lookup key' = none := absent
      dsimp only
      rw [visit_stored_self, nothing, Option.none_or]
      exact (covered.gone key' absent).1
    · exact (visit_stored_ne r.store r.pending same).trans (covered.gone key' absent).1
  · exact covered

theorem covered_dumpFlush (covered : Covered r) (flushed : Bool) :
    Covered (r.step (.dumpFlush flushed)) := by
  simp only [step]
  split
  · rename_i dumps
    have empty : ∀ key, storedOffset (∅ : AList fun _ : Bytes => Bytes) key = none :=
      fun key => storedOffset_of_not_mem (AList.notMem_empty _)
    cases flushed with
    | false =>
      exact ⟨fun key absent => ⟨empty key, (covered.gone key absent).2⟩, covered.synced⟩
    | true =>
      refine ⟨?_, fun idle => absurd dumps (Int.not_lt.mpr idle)⟩
      intro key absent
      obtain ⟨pending, stored⟩ := covered.gone key absent
      refine ⟨empty key, ?_⟩
      change storedOffset (r.pending ∪ r.store.db) key = none
      by_cases inside : badgerKey key ∈ r.pending
      · rw [storedOffset_union_left inside, pending]
      · rw [storedOffset_union_right inside, stored]
  · exact covered

theorem covered_step_iff (covered : Covered r) (event : StoreEvent) :
    Covered (r.step event) ↔ r.Persistent event := by
  cases event with
  | commit group topic partition offset now written =>
    exact covered_commit_iff covered group topic partition offset now written
  | deleteTopic topic flushed => exact covered_deleteTopic_iff covered topic flushed
  | expireSessions now timeout => exact covered_expireSessions_iff covered now timeout
  | dumpVisit key => exact ⟨fun _ => trivial, fun _ => covered_dumpVisit covered key⟩
  | dumpFlush flushed => exact ⟨fun _ => trivial, fun _ => covered_dumpFlush covered flushed⟩

theorem shape_step (shape : Shape r) (event : StoreEvent) : Shape (r.step event) := by
  cases event with
  | commit group topic partition offset now written =>
    refine ⟨?_, shape.whole⟩
    intro idle
    exact shape.idle ((commit_dumpInterval ..).symm.trans_le idle)
  | deleteTopic topic flushed => exact ⟨shape.idle, shape.whole⟩
  | expireSessions now timeout => exact ⟨shape.idle, shape.whole⟩
  | dumpVisit key =>
    simp only [step]
    split
    · rename_i dumps
      refine ⟨fun idle => absurd dumps (Int.not_lt.mpr idle), ?_⟩
      intro key' inside
      dsimp only at inside ⊢
      by_cases same : key' = key
      · subst same
        rw [visit_stored_self]
        cases cached : r.store.cache.lookup key' with
        | some offset => simp
        | none =>
          rw [Option.none_or]
          rcases visit_mem inside with before | ⟨_, member⟩
          · exact shape.whole key' before
          · exact absurd member (AList.lookup_eq_none.mp cached)
      · rw [visit_stored_ne r.store r.pending same]
        rcases visit_mem inside with before | ⟨self, _⟩
        · exact shape.whole key' before
        · exact absurd self same
    · exact shape
  | dumpFlush flushed =>
    simp only [step]
    split
    · exact ⟨fun _ => rfl, fun key inside => absurd inside (AList.notMem_empty _)⟩
    · exact shape

end Steps

/-! ## Whole runs -/

structure Inv (r : StoreRun) : Prop where
  shape : Shape r
  covered : Covered r

theorem start_shape (db : AList fun _ : Bytes => Bytes) (dumpInterval : Int) :
    Shape (start db dumpInterval) :=
  ⟨fun _ => rfl, fun _ inside => absurd inside (AList.notMem_empty _)⟩

theorem start_covered (db : AList fun _ : Bytes => Bytes) (dumpInterval : Int) :
    Covered (start db dumpInterval) := by
  refine ⟨?_, fun _ key => (newOffsetStore_lookup db dumpInterval key).symm⟩
  intro key absent
  refine ⟨storedOffset_of_not_mem (AList.notMem_empty _), ?_⟩
  exact (newOffsetStore_lookup db dumpInterval key).symm.trans absent

/-- In a run from any database, in either mode, closing and opening the store
again changes no offset at any point exactly when every step is persistent. -/
theorem reopened_as_closed_iff_persistent (db : AList fun _ : Bytes => Bytes) (dumpInterval : Int)
    (events : List StoreEvent) :
    (∀ r ∈ Runs.states step (start db dumpInterval) events, r.Durable) ↔
      Runs.Guarded step Persistent (start db dumpInterval) events := by
  refine Runs.states_good_iff_guarded (fun r (inv : Inv r) => ?_) (fun r event inv _ guard => ?_)
    (fun r event inv _ durable => ?_) events _ ⟨start_shape db dumpInterval,
      start_covered db dumpInterval⟩ (Runs.guarded_true events _)
  · exact (durable_iff_covered inv.shape).mpr inv.covered
  · exact ⟨shape_step inv.shape event, (covered_step_iff inv.covered event).mpr guard⟩
  · exact (covered_step_iff inv.covered event).mp
      ((durable_iff_covered (shape_step inv.shape event)).mp durable)

/-- A commit at time 1 that has expired by time 100 is back after a restart. -/
theorem expired_offset_returns :
    let r := Runs.final step (start ∅ 0)
      [.commit [103] [116] 0 5 1 true, .expireSessions 100 10]
    r.store.load [103] [116] 0 = .error (.offsetNotFound [116] 0 [103]) ∧
      r.reopened.load [103] [116] 0 = .ok 5 := by
  decide

end StoreRun

end NyaQueue
