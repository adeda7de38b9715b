import NyaQueue.Wal
import NyaQueue.EntryRing
import NyaQueue.Lib.Decimal
import NyaQueue.Lib.Batches

/-!
# The offset store

Model of `pkg/broker/offset_store.go`: a cache of committed offsets in front of
a key-value database.  Keys are the bytes of `topic/partition/group`.  Whether
a database write goes through is decided by the environment; the cache is
updated first in any case.
-/

set_option autoImplicit false

namespace NyaQueue

open BigEndian

def offsetsPrefix : Bytes := [111, 102, 102, 47]

def maxInt64 : Int64 := Int64.maxValue

inductive StoreError where
  /-- offset not found for %s/%d/%s -/
  | offsetNotFound (topic : Bytes) (partition : Int) (group : Bytes)
  | writeFailed
  deriving DecidableEq

structure OffsetStore where
  cache : AList (fun _ : Bytes => Int64)
  lastCommit : AList (fun _ : Bytes => Time)
  db : AList (fun _ : Bytes => Bytes)
  dumpInterval : Int

def badgerKey (cacheKey : Bytes) : Bytes := offsetsPrefix ++ cacheKey

def bucketKey (topic : Bytes) (partition : Int) (group : Bytes) : Bytes :=
  topic ++ 47 :: (Decimal.ofInt partition ++ 47 :: group)

namespace OffsetStore

/-- A store on an empty database. -/
def empty (dumpInterval : Int) : OffsetStore where
  cache := ∅
  lastCommit := ∅
  db := ∅
  dumpInterval := dumpInterval

def writeOne (s : OffsetStore) (key : Bytes) (offset : Int64) (written : Bool) :
    Except StoreError Unit × OffsetStore :=
  if written then
    (.ok (), { s with db := s.db.insert (badgerKey key) (putUint64 offset.toUInt64) })
  else (.error .writeFailed, s)

/-- `Commit`; without a dump interval the database is written at once, and
`written` says whether that works. -/
def commit (s : OffsetStore) (group topic : Bytes) (partition : Int) (offset : Int64)
    (now : Time) (written : Bool) : Except StoreError Unit × OffsetStore :=
  let key := bucketKey topic partition group
  let s' := { s with
    cache := s.cache.insert key offset
    lastCommit := s.lastCommit.insert key now }
  if 0 < s.dumpInterval then (.ok (), s') else s'.writeOne key offset written

def load (s : OffsetStore) (group topic : Bytes) (partition : Int) : Except StoreError Int64 :=
  match s.cache.lookup (bucketKey topic partition group) with
  | some offset => .ok offset
  | none => .error (.offsetNotFound topic partition group)

/-- The offsets committed under keys that start with `topic/partition/`. -/
def committed (s : OffsetStore) (topic : Bytes) (partition : Int) : List Int64 :=
  (s.cache.entries.filter fun entry =>
    (bucketKey topic partition []).isPrefixOf entry.1).map fun entry => entry.2

def commitFloor (s : OffsetStore) (topic : Bytes) (partition : Int) : Int64 :=
  if s.committed topic partition = [] then 0
  else (s.committed topic partition).foldl (fun least off => if off < least then off else least)
    maxInt64

/-- The cached keys that start with `topic/`. -/
def topicKeys (s : OffsetStore) (topic : Bytes) : List Bytes :=
  s.cache.keys.filter fun key => (topic ++ [47]).isPrefixOf key

/-- `DeleteTopic`; `flushed` says whether the batch of deletions reaches the
database. -/
def deleteTopic (s : OffsetStore) (topic : Bytes) (flushed : Bool) : OffsetStore :=
  let keys := s.topicKeys topic
  { s with
    cache := Batches.eraseAll keys s.cache
    db := if flushed then Batches.eraseAll (keys.map badgerKey) s.db else s.db }

/-- The keys whose last commit is older than the cutoff. -/
def expiredKeys (s : OffsetStore) (cutoff : Time) : List Bytes :=
  (s.lastCommit.entries.filter fun entry => decide (entry.2 < cutoff)).map fun entry => entry.1

/-- `ExpireSessions`; the database is not touched. -/
def expireSessions (s : OffsetStore) (now : Time) (timeout : Int) : OffsetStore :=
  let expired := s.expiredKeys (now - timeout)
  { s with
    cache := Batches.eraseAll expired s.cache
    lastCommit := Batches.eraseAll expired s.lastCommit }

/-- What the scan of `dump` adds to its batch when it visits `key`. -/
def visit (s : OffsetStore) (batch : AList fun _ : Bytes => Bytes) (key : Bytes) :
    AList fun _ : Bytes => Bytes :=
  match s.cache.lookup key with
  | none => batch
  | some offset => batch.insert (badgerKey key) (putUint64 offset.toUInt64)

/-- The flush of a batch. -/
def flush (s : OffsetStore) (batch : AList fun _ : Bytes => Bytes) (flushed : Bool) :
    OffsetStore :=
  if flushed then { s with db := batch ∪ s.db } else s

/-- `dump` without interruption. -/
def dump (s : OffsetStore) : OffsetStore :=
  s.flush (s.cache.keys.foldl s.visit ∅) true

/-- The cache that `NewOffsetStore` reads from one database entry. -/
def warm (cache : AList fun _ : Bytes => Int64) (entry : Sigma fun _ : Bytes => Bytes) :
    AList fun _ : Bytes => Int64 :=
  if offsetsPrefix.isPrefixOf entry.1 ∧ entry.2.length = 8 then
    cache.insert (entry.1.drop offsetsPrefix.length) (uint64 entry.2).toInt64
  else cache

def newOffsetStore (db : AList fun _ : Bytes => Bytes) (dumpInterval : Int) : OffsetStore where
  cache := db.entries.foldl warm ∅
  lastCommit := ∅
  db := db
  dumpInterval := dumpInterval

/-! ## Commits and loads -/

variable {topic group : Bytes} {partition partition' : Int} {s : OffsetStore}

theorem bucketKey_injective {group' : Bytes}
    (same : bucketKey topic partition group = bucketKey topic partition' group') :
    partition = partition' ∧ group = group' := by
  have fields := (List.cons.inj (List.append_cancel_left same)).2
  obtain ⟨numbers, groups⟩ := Decimal.separated_injective (Decimal.ofInt_no_slash partition)
    (Decimal.ofInt_no_slash partition') fields
  exact ⟨Decimal.ofInt_injective numbers, groups⟩

theorem commit_cache (s : OffsetStore) (group topic : Bytes) (partition : Int) (offset : Int64)
    (now : Time) (written : Bool) :
    (s.commit group topic partition offset now written).2.cache =
      s.cache.insert (bucketKey topic partition group) offset := by
  unfold commit writeOne
  dsimp only
  split
  · rfl
  · split <;> rfl

theorem load_commit_self (s : OffsetStore) (group topic : Bytes) (partition : Int)
    (offset : Int64) (now : Time) (written : Bool) :
    (s.commit group topic partition offset now written).2.load group topic partition =
      .ok offset := by
  rw [load, commit_cache, AList.lookup_insert]

theorem load_commit_other (s : OffsetStore) {group' : Bytes}
    (different : ¬ (partition' = partition ∧ group' = group)) (offset : Int64) (now : Time)
    (written : Bool) :
    (s.commit group topic partition offset now written).2.load group' topic partition' =
      s.load group' topic partition' := by
  have keys : bucketKey topic partition' group' ≠ bucketKey topic partition group :=
    fun same => different (bucketKey_injective same)
  rw [load, commit_cache, AList.lookup_insert_ne keys]
  rfl

/-! ## Deleted topics -/

theorem mem_topicKeys (s : OffsetStore) (topic key : Bytes) :
    key ∈ s.topicKeys topic ↔ key ∈ s.cache ∧ (topic ++ [47]) <+: key := by
  rw [topicKeys, List.mem_filter]
  exact and_congr Iff.rfl List.isPrefixOf_iff_prefix

theorem deleteTopic_lookup_starts (s : OffsetStore) {key : Bytes} (starts : (topic ++ [47]) <+: key)
    (flushed : Bool) :
    (s.deleteTopic topic flushed).cache.lookup key = none := by
  by_cases cached : key ∈ s.cache
  · exact Batches.lookup_eraseAll_of_mem ((s.mem_topicKeys topic key).mpr ⟨cached, starts⟩) _
  · have outside : key ∉ s.topicKeys topic :=
      fun member => cached ((s.mem_topicKeys topic key).mp member).1
    exact (Batches.lookup_eraseAll_of_not_mem outside _).trans (AList.lookup_eq_none.mpr cached)

theorem deleteTopic_lookup_other (s : OffsetStore) {key : Bytes} (other : ¬ (topic ++ [47]) <+: key)
    (flushed : Bool) :
    (s.deleteTopic topic flushed).cache.lookup key = s.cache.lookup key :=
  Batches.lookup_eraseAll_of_not_mem
    (fun member => other ((s.mem_topicKeys topic key).mp member).2) _

/-! ## The commit floor -/

theorem bucketKey_append (topic : Bytes) (partition : Int) (group : Bytes) :
    bucketKey topic partition [] ++ group = bucketKey topic partition group := by
  simp [bucketKey]

theorem bucketKey_isPrefixOf_iff (topic : Bytes) (partition partition' : Int) (group : Bytes) :
    (bucketKey topic partition []).isPrefixOf (bucketKey topic partition' group) = true ↔
      partition' = partition := by
  rw [ List.isPrefixOf_iff_prefix]
  constructor
  · rintro ⟨rest, same⟩
    rw [bucketKey_append] at same
    exact (bucketKey_injective same).1.symm
  · rintro rfl
    exact ⟨group, bucketKey_append ..⟩

theorem load_mem_committed {offset : Int64} (load : s.load group topic partition = .ok offset) :
    offset ∈ s.committed topic partition := by
  unfold OffsetStore.load at load
  cases found : s.cache.lookup (bucketKey topic partition group) with
  | none =>
    rw [found] at load
    cases load
  | some offset' =>
    rw [found] at load
    cases load
    refine List.mem_map.mpr ⟨⟨bucketKey topic partition group, offset⟩, ?_, rfl⟩
    refine List.mem_filter.mpr ⟨AList.mem_lookup_iff.mp found, ?_⟩
    exact (bucketKey_isPrefixOf_iff ..).mpr rfl

theorem mem_committed_commit {offset offset' : Int64} {now : Time} {written : Bool}
    (member : offset' ∈ (s.commit group topic partition offset now written).2.committed topic
      partition') :
    offset' ∈ s.committed topic partition' ∨ (partition' = partition ∧ offset' = offset) := by
  obtain ⟨entry, inside, rfl⟩ := List.mem_map.mp member
  obtain ⟨there, key⟩ := List.mem_filter.mp inside
  rw [commit_cache, AList.entries_insert] at there
  rcases List.mem_cons.mp there with rfl | old
  · exact .inr ⟨((bucketKey_isPrefixOf_iff ..).mp key).symm, rfl⟩
  · refine .inl (List.mem_map.mpr ⟨entry, List.mem_filter.mpr ⟨?_, key⟩, rfl⟩)
    exact (List.kerase_sublist _ _).subset old

theorem foldl_least_le (offsets : List Int64) : ∀ least : Int64,
    offsets.foldl (fun least off => if off < least then off else least) least ≤ least ∧
      ∀ off ∈ offsets,
        offsets.foldl (fun least off => if off < least then off else least) least ≤ off := by
  induction offsets with
  | nil => intro least; simp
  | cons first rest ih =>
    intro least
    rw [List.foldl_cons]
    obtain ⟨start, later⟩ := ih (if first < least then first else least)
    have both : (if first < least then first else least) ≤ least ∧
        (if first < least then first else least) ≤ first := by
      split
      · rename_i below
        exact ⟨Int64.le_of_lt below, Int64.le_refl _⟩
      · rename_i above
        exact ⟨Int64.le_refl _, Int64.not_lt.mp above⟩
    refine ⟨Int64.le_trans start both.1, ?_⟩
    intro off member
    rcases List.mem_cons.mp member with rfl | inside
    · exact Int64.le_trans start both.2
    · exact later off inside

theorem commitFloor_spec (positive : 1 < s.commitFloor topic partition) :
    s.committed topic partition ≠ [] ∧
      ∀ off ∈ s.committed topic partition, s.commitFloor topic partition ≤ off := by
  unfold commitFloor at positive ⊢
  by_cases nothing : s.committed topic partition = []
  · rw [if_pos nothing] at positive
    exact absurd positive (by decide)
  · rw [if_neg nothing]
    exact ⟨nothing, (foldl_least_le _ _).2⟩

end OffsetStore

end NyaQueue
