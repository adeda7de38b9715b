import NyaQueue.SessionThreads

/-!
# Whether session expiry keeps live commits

When an `ExpireSessions` has finished, the offsets committed within the timeout
should be there and those committed before its cutoff should not.  The invariant
follows the keys that a running call has found expired, and those it has still
to find.
-/

set_option autoImplicit false

namespace NyaQueue

namespace SessionRun

/-- A `Commit` of the key is between its two operations. -/
def Committing (s : SessionRun) (key : Bytes) : Prop :=
  ∃ thread, (s.threads thread).commits = some key

/-- When an `ExpireSessions` has finished, the offsets committed within the
timeout are there and those committed before its cutoff are not. -/
def Accurate (timeout : Int) (s : SessionRun) : Prop :=
  ∀ cutoff, s.finished = some cutoff → ∀ group topic partition time,
    s.latest (bucketKey topic partition group) = some time →
      (s.now - timeout ≤ time → ∃ offset,
        s.stored (bucketKey topic partition group) = some offset ∧
          s.store.load group topic partition = .ok offset) ∧
      (time < cutoff → ¬ s.Committing (bucketKey topic partition group) →
        ∀ offset, s.store.load group topic partition ≠ .ok offset)

/-- What a step needs: a `Commit` stores no offset while a running
`ExpireSessions` is going to delete the key from the cache, and no time while
it is going to delete that one; a key is not found expired while a `Commit` of
it is between its operations; and no offset that nobody has committed since
start-up was committed before the cutoff of an `ExpireSessions` that begins. -/
def Undisturbed (timeout : Int) (s : SessionRun) : SessionEvent → Prop
  | .tick _ => True
  | .commit _ group topic partition _ =>
      ∀ other, bucketKey topic partition group ∉ (s.threads other).condemned
  | .expire _ => 0 ≤ timeout ∧ ∀ key ∈ s.store.cache, s.touched key = false →
      ∀ time, s.latest key = some time → s.now - timeout ≤ time
  | .visit thread key => ∀ cutoff time, (s.threads thread).cutoff = some cutoff →
      s.store.lastCommit.lookup key = some time → time < cutoff → ¬ s.Committing key
  | .advance thread => ∀ key, (s.threads thread).commits = some key → ∀ other,
      key ∉ (s.threads other).condemned ∧ (s.threads other).forgets ≠ some key

/-! ## The invariant -/

/-- What is true of a call with the given cutoff. -/
structure Watch (timeout : Int) (s : SessionRun) (cutoff : Time) (t : SessionThread) : Prop where
  early : 0 ≤ timeout ∧ cutoff ≤ s.now - timeout
  condemned : ∀ key ∈ t.condemned,
    (∃ time, s.latest key = some time ∧ time < cutoff) ∧ ¬ s.Committing key
  forgets : ∀ key, t.forgets = some key → key ∈ s.store.cache → s.Committing key
  awaited : ∀ key ∈ s.store.cache, s.touched key = true → ∀ time, s.latest key = some time →
    time < cutoff → ¬ s.Committing key → key ∈ t.unvisited ∨ key ∈ t.condemned
  disk : ∀ key ∈ s.store.cache, s.touched key = false → ∀ time, s.latest key = some time →
    cutoff ≤ time

structure Inv (timeout : Int) (s : SessionRun) : Prop where
  recorded : ∀ key time, s.store.lastCommit.lookup key = some time → s.latest key = some time
  value : ∀ key offset, s.store.cache.lookup key = some offset → s.stored key = some offset
  kept : ∀ key time, s.latest key = some time → key ∈ s.store.cache ∨ time < s.now - timeout
  known : ∀ key ∈ s.store.cache, s.touched key = true →
    key ∈ s.store.lastCommit ∨ s.Committing key
  present : ∀ key, s.Committing key → key ∈ s.store.cache
  watch : ∀ thread cutoff, (s.threads thread).cutoff = some cutoff →
    Watch timeout s cutoff (s.threads thread)
  swept : ∀ cutoff, s.finished = some cutoff → Watch timeout s cutoff .idle

section Maps

variable {β : Type} {map : AList fun _ : Bytes => β}

theorem lookup_of_erase {key key' : Bytes} {v : β} (found : (map.erase key).lookup key' = some v) :
    map.lookup key' = some v := by
  by_cases same : key' = key
  · rw [same, AList.lookup_erase] at found
    cases found
  · rwa [AList.lookup_erase_ne same] at found

theorem insert_agrees {record : Bytes → Option β}
    (agrees : ∀ key v, map.lookup key = some v → record key = some v) (key : Bytes) (v : β)
    (key' : Bytes) (v' : β) (found : (map.insert key v).lookup key' = some v') :
    Function.update record key (some v) key' = some v' := by
  by_cases same : key' = key
  · rw [same, AList.lookup_insert] at found
    rw [same, Function.update_self]
    exact found
  · rw [AList.lookup_insert_ne same] at found
    rw [Function.update_of_ne same]
    exact agrees key' v' found

end Maps

section Frame

variable {timeout : Int} {s s' : SessionRun} {thread : Nat} {t : SessionThread}

theorem committing_iff (threads : s'.threads = Function.update s.threads thread t) (key : Bytes) :
    s'.Committing key ↔
      t.commits = some key ∨ ∃ other ≠ thread, (s.threads other).commits = some key := by
  unfold Committing
  rw [threads]
  constructor
  · rintro ⟨other, commits⟩
    by_cases own : other = thread
    · rw [own, Function.update_self] at commits
      exact .inl commits
    · rw [Function.update_of_ne own] at commits
      exact .inr ⟨other, own, commits⟩
  · rintro (commits | ⟨other, own, commits⟩)
    · exact ⟨thread, by rwa [Function.update_self]⟩
    · exact ⟨other, by rwa [Function.update_of_ne own]⟩

theorem committing_self (s : SessionRun) (thread : Nat) (key : Bytes) :
    s.Committing key ↔ (s.threads thread).commits = some key ∨
      ∃ other ≠ thread, (s.threads other).commits = some key :=
  committing_iff (Function.update_eq_self thread s.threads).symm key

theorem committing_update (threads : s'.threads = Function.update s.threads thread t)
    (same : t.commits = (s.threads thread).commits) (key : Bytes) :
    s'.Committing key ↔ s.Committing key := by
  rw [committing_iff threads, same, ← committing_self]

theorem Watch.transport {cutoff : Time} {t : SessionThread} (watch : Watch timeout s cutoff t)
    (now : s.now ≤ s'.now) (cache : ∀ key ∈ s'.store.cache, key ∈ s.store.cache)
    (latest : s'.latest = s.latest) (touched : s'.touched = s.touched)
    (committing : ∀ key, s'.Committing key ↔ s.Committing key) : Watch timeout s' cutoff t := by
  refine ⟨⟨watch.early.1, ?_⟩, ?_, ?_, ?_, ?_⟩
  · exact Int.le_trans watch.early.2 (Int.sub_le_sub_right now timeout)
  · intro key member
    rw [latest, committing]
    exact watch.condemned key member
  · intro key forgets cached
    exact (committing key).mpr (watch.forgets key forgets (cache key cached))
  · intro key cached new time committed old free
    rw [touched] at new
    rw [latest] at committed
    rw [committing] at free
    exact watch.awaited key (cache key cached) new time committed old free
  · intro key cached unread time committed
    rw [touched] at unread
    rw [latest] at committed
    exact watch.disk key (cache key cached) unread time committed

theorem watch_update (threads : s'.threads = Function.update s.threads thread t)
    (own : ∀ cutoff, t.cutoff = some cutoff → Watch timeout s' cutoff t)
    (others : ∀ other cutoff, (s.threads other).cutoff = some cutoff →
      Watch timeout s' cutoff (s.threads other)) (other : Nat) (cutoff : Time)
    (expiring : (s'.threads other).cutoff = some cutoff) :
    Watch timeout s' cutoff (s'.threads other) := by
  rw [threads] at expiring ⊢
  by_cases same : other = thread
  · subst same
    rw [Function.update_self] at expiring ⊢
    exact own cutoff expiring
  · rw [Function.update_of_ne same] at expiring ⊢
    exact others other cutoff expiring

theorem swept_of_running (running : s'.finished = none) (cutoff : Time)
    (finished : s'.finished = some cutoff) : Watch timeout s' cutoff .idle := by
  cases running.symm.trans finished

theorem accurate_of_inv (inv : Inv timeout s) : s.Accurate timeout := by
  intro cutoff finished group topic partition time committed
  have swept := inv.swept cutoff finished
  constructor
  · intro recent
    have cached : bucketKey topic partition group ∈ s.store.cache := by
      rcases inv.kept _ time committed with cached | old
      · exact cached
      · exact absurd old (Int.not_lt.mpr recent)
    obtain ⟨offset, found⟩ := Option.isSome_iff_exists.mp (AList.lookup_isSome.mpr cached)
    refine ⟨offset, inv.value _ offset found, ?_⟩
    rw [OffsetStore.load, found]
  · intro old free offset loaded
    have cached : bucketKey topic partition group ∈ s.store.cache := by
      by_contra absent
      rw [OffsetStore.load, AList.lookup_eq_none.mpr absent] at loaded
      cases loaded
    cases touched : s.touched (bucketKey topic partition group) with
    | true =>
      rcases swept.awaited _ cached touched time committed old free with waiting | condemned
      · cases waiting
      · cases condemned
    | false => exact absurd old (Int.not_lt.mpr (swept.disk _ cached touched time committed))

end Frame

/-! ## One step -/

section Steps

variable {timeout : Int} {s : SessionRun} {thread : Nat}

theorem inv_clear (inv : Inv timeout s) : Inv timeout { s with finished := none } where
  recorded := inv.recorded
  value := inv.value
  kept := inv.kept
  known := inv.known
  present := inv.present
  watch thread cutoff expiring := (inv.watch thread cutoff expiring).transport (Int.le_refl _)
    (fun _ cached => cached) rfl rfl (fun _ => Iff.rfl)
  swept _ impossible := by cases impossible

theorem inv_tick (inv : Inv timeout s) (now : Time) :
    Inv timeout (s.step timeout (.tick now)) where
  recorded := inv.recorded
  value := inv.value
  kept key time committed := by
    rcases inv.kept key time committed with cached | old
    · exact .inl cached
    · exact .inr (Int.lt_of_lt_of_le old (Int.sub_le_sub_right (Int.le_max_left s.now now) timeout))
  known := inv.known
  present := inv.present
  watch thread cutoff expiring := (inv.watch thread cutoff expiring).transport
    (Int.le_max_left s.now now) (fun _ cached => cached) rfl rfl (fun _ => Iff.rfl)
  swept _ impossible := by cases impossible

theorem committing_begins (idle : s.threads thread = .idle) (key : Bytes) (offset : Int64)
    (key' : Bytes) :
    ((s.storeCache key offset).setThread thread (.committing key)).Committing key' ↔
      s.Committing key' ∨ key' = key := by
  rw [committing_iff (s := s) rfl, s.committing_self thread, idle]
  simp [SessionThread.commits, or_comm, eq_comm]

variable {key : Bytes} {cutoff : Time} {t : SessionThread}

theorem watch_storeCache {offset : Int64} (idle : s.threads thread = .idle)
    (watch : Watch timeout s cutoff t) (spared : key ∉ t.condemned) :
    Watch timeout ((s.storeCache key offset).setThread thread (.committing key)) cutoff t := by
  have committing := committing_begins idle key offset
  have cache : ∀ key' ∈ s.store.cache.insert key offset, key' = key ∨ key' ∈ s.store.cache :=
    fun key' cached => (AList.mem_insert _).mp cached
  refine ⟨watch.early, ?_, ?_, ?_, ?_⟩
  · intro key' member
    refine ⟨(watch.condemned key' member).1, ?_⟩
    rw [committing]
    rintro (busy | rfl)
    · exact (watch.condemned key' member).2 busy
    · exact spared member
  · intro key' forgets cached
    rw [committing]
    rcases cache key' cached with rfl | before
    · exact .inr rfl
    · exact .inl (watch.forgets key' forgets before)
  · intro key' cached new time committed old free
    rw [committing, not_or] at free
    rcases cache key' cached with same | before
    · exact absurd same free.2
    · have touched : s.touched key' = true := (Function.update_of_ne free.2 ..).symm.trans new
      exact watch.awaited key' before touched time committed old free.1
  · intro key' cached unread time committed
    have other : key' ≠ key := by
      rintro rfl
      have new : Function.update s.touched key' true key' = true := Function.update_self ..
      exact Bool.false_ne_true (unread.symm.trans new)
    have touched : s.touched key' = false := (Function.update_of_ne other ..).symm.trans unread
    rcases cache key' cached with same | before
    · exact absurd same other
    · exact watch.disk key' before touched time committed

theorem inv_storeCache (inv : Inv timeout s) (idle : s.threads thread = .idle) (offset : Int64)
    (spared : ∀ other, key ∉ (s.threads other).condemned) (running : s.finished = none) :
    Inv timeout ((s.storeCache key offset).setThread thread (.committing key)) := by
  have committing := committing_begins idle key offset
  refine ⟨inv.recorded, ?_, ?_, ?_, ?_, ?_, ?_⟩
  · exact insert_agrees inv.value key offset
  · intro key' time committed
    rcases inv.kept key' time committed with cached | old
    · exact .inl ((AList.mem_insert _).mpr (.inr cached))
    · exact .inr old
  · intro key' cached new
    rw [committing]
    by_cases same : key' = key
    · exact .inr (.inr same)
    · have touched : s.touched key' = true := (Function.update_of_ne same ..).symm.trans new
      rcases (AList.mem_insert _).mp cached with impossible | before
      · exact absurd impossible same
      · rcases inv.known key' before touched with timed | busy
        · exact .inl timed
        · exact .inr (.inl busy)
  · intro key' busy
    rcases (committing key').mp busy with before | rfl
    · exact (AList.mem_insert _).mpr (.inr (inv.present key' before))
    · exact (AList.mem_insert _).mpr (.inl rfl)
  · refine watch_update rfl (fun cutoff impossible => by cases impossible) ?_
    intro other cutoff expiring
    exact watch_storeCache idle (inv.watch other cutoff expiring) (spared other)
  · exact swept_of_running running

theorem committing_ends (busy : s.threads thread = .committing key) (key' : Bytes) :
    (((s.storeTime key).setThread thread .idle).Committing key' → s.Committing key') ∧
      (s.Committing key' → key' ≠ key →
        ((s.storeTime key).setThread thread .idle).Committing key') := by
  rw [committing_iff (s := s) rfl, s.committing_self thread, busy]
  constructor
  · rintro (impossible | others)
    · cases impossible
    · exact .inr others
  · rintro (commits | others) different
    · exact absurd (Option.some.inj commits).symm different
    · exact .inr others

theorem watch_storeTime (busy : s.threads thread = .committing key)
    (watch : Watch timeout s cutoff t) (spared : key ∉ t.condemned)
    (remembered : t.forgets ≠ some key) :
    Watch timeout ((s.storeTime key).setThread thread .idle) cutoff t := by
  have ends := committing_ends busy
  have early : cutoff ≤ s.now :=
    Int.le_trans watch.early.2 (Int.sub_le_self s.now watch.early.1)
  have latest : ∀ key', key' ≠ key →
      Function.update s.latest key (some s.now) key' = s.latest key' :=
    fun key' different => Function.update_of_ne different ..
  have own : Function.update s.latest key (some s.now) key = some s.now := Function.update_self ..
  refine ⟨watch.early, ?_, ?_, ?_, ?_⟩
  · intro key' member
    have different : key' ≠ key := by
      rintro rfl
      exact spared member
    obtain ⟨⟨time, committed, old⟩, free⟩ := watch.condemned key' member
    exact ⟨⟨time, (latest key' different).trans committed, old⟩,
      fun busy => free ((ends key').1 busy)⟩
  · intro key' forgets cached
    have different : key' ≠ key := by
      rintro rfl
      exact remembered forgets
    exact (ends key').2 (watch.forgets key' forgets cached) different
  · intro key' cached new time committed old free
    by_cases same : key' = key
    · -- the new time is not before the cutoff
      rw [same] at committed
      cases own.symm.trans committed
      exact absurd old (Int.not_lt.mpr early)
    · exact watch.awaited key' cached new time ((latest key' same).symm.trans committed) old
        fun busy => free ((ends key').2 busy same)
  · intro key' cached unread time committed
    by_cases same : key' = key
    · rw [same] at committed
      cases own.symm.trans committed
      exact early
    · exact watch.disk key' cached unread time ((latest key' same).symm.trans committed)

theorem inv_storeTime (inv : Inv timeout s) (busy : s.threads thread = .committing key)
    (spared : ∀ other, key ∉ (s.threads other).condemned ∧ (s.threads other).forgets ≠ some key)
    (running : s.finished = none) : Inv timeout ((s.storeTime key).setThread thread .idle) := by
  have ends := committing_ends busy
  have here : key ∈ s.store.cache := inv.present key ⟨thread, by rw [busy]; rfl⟩
  refine ⟨?_, inv.value, ?_, ?_, ?_, ?_, ?_⟩
  · exact insert_agrees inv.recorded key s.now
  · intro key' time committed
    by_cases same : key' = key
    · exact .inl (same ▸ here)
    · exact inv.kept key' time ((Function.update_of_ne same ..).symm.trans committed)
  · intro key' cached new
    by_cases same : key' = key
    · exact .inl ((AList.mem_insert _).mpr (.inl same))
    · rcases inv.known key' cached new with timed | committing
      · exact .inl ((AList.mem_insert _).mpr (.inr timed))
      · exact .inr ((ends key').2 committing same)
  · intro key' committing
    exact inv.present key' ((ends key').1 committing)
  · refine watch_update rfl (fun cutoff impossible => by cases impossible) ?_
    intro other cutoff expiring
    exact watch_storeTime busy (inv.watch other cutoff expiring) (spared other).1 (spared other).2
  · exact swept_of_running running

theorem inv_expiring (inv : Inv timeout s) {s' : SessionRun}
    (threads : s'.threads = Function.update s.threads thread t)
    (commits : t.commits = (s.threads thread).commits) (now : s'.now = s.now)
    (latest : s'.latest = s.latest) (stored : s'.stored = s.stored)
    (touched : s'.touched = s.touched)
    (cache : ∀ key offset, s'.store.cache.lookup key = some offset →
      s.store.cache.lookup key = some offset)
    (deleted : ∀ key ∈ s.store.cache, key ∈ s'.store.cache ∨ (¬ s.Committing key ∧
      ∃ time, s.latest key = some time ∧ time < s.now - timeout))
    (lastCommit : ∀ key time, s'.store.lastCommit.lookup key = some time →
      s.store.lastCommit.lookup key = some time)
    (known : ∀ key ∈ s'.store.cache, s.touched key = true →
      key ∈ s'.store.lastCommit ∨ s.Committing key)
    (own : ∀ cutoff, t.cutoff = some cutoff → Watch timeout s' cutoff t)
    (swept : ∀ cutoff, s'.finished = some cutoff → Watch timeout s' cutoff .idle) :
    Inv timeout s' := by
  have committing := committing_update threads commits
  have smaller : ∀ key ∈ s'.store.cache, key ∈ s.store.cache := by
    intro key cached
    obtain ⟨offset, found⟩ := Option.isSome_iff_exists.mp (AList.lookup_isSome.mpr cached)
    rw [← AList.lookup_isSome, cache key offset found]
    rfl
  refine ⟨?_, ?_, ?_, ?_, ?_, ?_, swept⟩
  · intro key time found
    rw [latest]
    exact inv.recorded key time (lastCommit key time found)
  · intro key offset found
    rw [stored]
    exact inv.value key offset (cache key offset found)
  · intro key time committed
    rw [latest] at committed
    rw [now]
    rcases inv.kept key time committed with cached | old
    · rcases deleted key cached with kept | ⟨-, time', committed', old⟩
      · exact .inl kept
      · rw [committed] at committed'
        cases committed'
        exact .inr old
    · exact .inr old
  · intro key cached new
    rw [touched] at new
    rw [committing]
    exact known key cached new
  · intro key busy
    rw [committing] at busy
    rcases deleted key (inv.present key busy) with kept | ⟨free, -⟩
    · exact kept
    · exact absurd busy free
  · refine watch_update threads own ?_
    intro other cutoff expiring
    exact (inv.watch other cutoff expiring).transport (Int.le_of_eq now.symm) smaller latest touched
      committing

theorem inv_setThread (inv : Inv timeout s) (commits : t.commits = (s.threads thread).commits)
    (running : s.finished = none)
    (own : ∀ cutoff, t.cutoff = some cutoff → Watch timeout s cutoff t) :
    Inv timeout (s.setThread thread t) := by
  refine inv_expiring inv rfl commits rfl rfl rfl rfl (fun _ _ found => found)
    (fun _ cached => .inl cached) (fun _ _ found => found) inv.known ?_ ?_
  · intro cutoff expiring
    exact (own cutoff expiring).transport (Int.le_refl _) (fun _ cached => cached) rfl rfl
      (committing_update rfl commits)
  · exact swept_of_running running

theorem watch_begin (inv : Inv timeout s) (positive : 0 ≤ timeout)
    (disk : ∀ key ∈ s.store.cache, s.touched key = false → ∀ time, s.latest key = some time →
      s.now - timeout ≤ time) :
    Watch timeout s (s.now - timeout) (.scanning (s.now - timeout) s.store.lastCommit.keys []) := by
  refine ⟨⟨positive, Int.le_refl _⟩, ?_, ?_, ?_, disk⟩
  · intro key member
    cases member
  · intro key impossible
    cases impossible
  · intro key cached new time committed old free
    rcases inv.known key cached new with timed | busy
    · exact .inl timed
    · exact absurd busy free

theorem watch_visit (inv : Inv timeout s) {todo expired : List Bytes}
    (watch : Watch timeout s cutoff (.scanning cutoff todo expired))
    (undisturbed : ∀ time, s.store.lastCommit.lookup key = some time → time < cutoff →
      ¬ s.Committing key) :
    Watch timeout s cutoff (.scanning cutoff (todo.erase key)
      (if (s.store.lastCommit.lookup key).any fun time => decide (time < cutoff) then
        expired ++ [key] else expired)) := by
  cases old : (s.store.lastCommit.lookup key).any fun time => decide (time < cutoff) with
  | true =>
    obtain ⟨time, timed, before⟩ : ∃ time, s.store.lastCommit.lookup key = some time ∧
        time < cutoff := by
      cases timed : s.store.lastCommit.lookup key with
      | none =>
        rw [timed] at old
        cases old
      | some time =>
        rw [timed] at old
        exact ⟨time, rfl, of_decide_eq_true old⟩
    rw [if_pos rfl]
    refine ⟨watch.early, ?_, ?_, ?_, watch.disk⟩
    · intro key' member
      rcases List.mem_append.mp member with already | new
      · exact watch.condemned key' already
      · rw [List.mem_singleton.mp new]
        exact ⟨⟨time, inv.recorded key time timed, before⟩, undisturbed time timed before⟩
    · intro key' impossible
      cases impossible
    · intro key' cached new time' committed older free
      by_cases same : key' = key
      · exact .inr (List.mem_append.mpr (.inr (List.mem_singleton.mpr same)))
      · rcases watch.awaited key' cached new time' committed older free with waiting | already
        · exact .inl ((List.mem_erase_of_ne same).mpr waiting)
        · exact .inr (List.mem_append.mpr (.inl already))
  | false =>
    rw [if_neg Bool.false_ne_true]
    refine ⟨watch.early, watch.condemned, ?_, ?_, watch.disk⟩
    · intro key' impossible
      cases impossible
    · intro key' cached new time' committed older free
      rcases watch.awaited key' cached new time' committed older free with waiting | already
      · by_cases same : key' = key
        · -- a key that is waited for has a time, and that lies before the cutoff
          subst same
          rcases inv.known key' cached new with timed | busy
          · obtain ⟨time, found⟩ := Option.isSome_iff_exists.mp (AList.lookup_isSome.mpr timed)
            have same := (inv.recorded key' time found).symm.trans committed
            cases same
            rw [found] at old
            exact absurd (decide_eq_true older) (by simpa using old)
          · exact absurd busy free
        · exact .inl ((List.mem_erase_of_ne same).mpr waiting)
      · exact .inr already

theorem inv_visit (inv : Inv timeout s) (running : s.finished = none)
    (undisturbed : ∀ cutoff time, (s.threads thread).cutoff = some cutoff →
      s.store.lastCommit.lookup key = some time → time < cutoff → ¬ s.Committing key) :
    Inv timeout (s.visit thread key) := by
  unfold visit
  split
  · rename_i cutoff todo expired scanning
    have expiring : (s.threads thread).cutoff = some cutoff := by rw [scanning]; rfl
    have watch := inv.watch thread cutoff expiring
    rw [scanning] at watch
    refine inv_setThread inv (by rw [scanning]; rfl) running ?_
    intro cutoff' same
    cases same
    exact watch_visit inv watch fun time => undisturbed cutoff time expiring
  · exact inv

theorem inv_deleteCache (inv : Inv timeout s) (running : s.finished = none) {rest : List Bytes}
    (deleting : s.threads thread = .deleting cutoff (key :: rest)) :
    Inv timeout ((s.deleteCache key).setThread thread (.forgetting cutoff key rest)) := by
  have watch := inv.watch thread cutoff (by rw [deleting]; rfl)
  rw [deleting] at watch
  obtain ⟨⟨time, committed, old⟩, free⟩ := watch.condemned key List.mem_cons_self
  have commits : SessionThread.commits (.forgetting cutoff key rest) =
      (s.threads thread).commits := by rw [deleting]; rfl
  have gone : key ∉ s.store.cache.erase key := fun cached => (AList.mem_erase.mp cached).1 rfl
  have smaller : ∀ key' ∈ s.store.cache.erase key, key' ∈ s.store.cache :=
    fun key' cached => (AList.mem_erase.mp cached).2
  refine inv_expiring inv rfl commits rfl rfl rfl rfl ?_ ?_ (fun _ _ found => found) ?_ ?_ ?_
  · intro key' offset found
    exact lookup_of_erase found
  · intro key' cached
    by_cases same : key' = key
    · subst same
      exact .inr ⟨free, time, committed, Int.lt_of_lt_of_le old watch.early.2⟩
    · exact .inl (AList.mem_erase.mpr ⟨same, cached⟩)
  · intro key' cached new
    exact inv.known key' (smaller key' cached) new
  · intro cutoff' same
    cases same
    have committing : ∀ key', ((s.deleteCache key).setThread thread
        (.forgetting cutoff key rest)).Committing key' ↔ s.Committing key' :=
      committing_update rfl commits
    refine ⟨watch.early, ?_, ?_, ?_, ?_⟩
    · intro key' member
      rw [committing]
      exact watch.condemned key' (List.mem_cons_of_mem _ member)
    · intro key' same cached
      cases same
      exact absurd cached gone
    · intro key' cached new time' committed' old' free'
      rw [committing] at free'
      rcases watch.awaited key' (smaller key' cached) new time' committed' old' free' with
        impossible | member
      · cases impossible
      · rcases List.mem_cons.mp member with rfl | later
        · exact absurd cached gone
        · exact .inr later
    · intro key' cached
      exact watch.disk key' (smaller key' cached)
  · exact swept_of_running running

theorem inv_deleteTime (inv : Inv timeout s) (running : s.finished = none) {rest : List Bytes}
    (forgetting : s.threads thread = .forgetting cutoff key rest) :
    Inv timeout ((s.deleteTime key).setThread thread (.deleting cutoff rest)) := by
  have watch := inv.watch thread cutoff (by rw [forgetting]; rfl)
  rw [forgetting] at watch
  have commits : SessionThread.commits (.deleting cutoff rest) = (s.threads thread).commits := by
    rw [forgetting]
    rfl
  refine inv_expiring inv rfl commits rfl rfl rfl rfl (fun _ _ found => found)
    (fun _ cached => .inl cached) ?_ ?_ ?_ ?_
  · intro key' time found
    exact lookup_of_erase found
  · intro key' cached new
    by_cases same : key' = key
    · subst same
      exact .inr (watch.forgets key' rfl cached)
    · rcases inv.known key' cached new with timed | busy
      · exact .inl (AList.mem_erase.mpr ⟨same, timed⟩)
      · exact .inr busy
  · intro cutoff' same
    cases same
    have after : Watch timeout s cutoff (.deleting cutoff rest) :=
      ⟨watch.early, watch.condemned, (fun _ impossible => by cases impossible), watch.awaited,
        watch.disk⟩
    exact after.transport (Int.le_refl _) (fun _ cached => cached) rfl rfl
      (committing_update rfl commits)
  · exact swept_of_running running

theorem inv_finish (inv : Inv timeout s) (deleting : s.threads thread = .deleting cutoff []) :
    Inv timeout { s.setThread thread .idle with finished := some cutoff } := by
  have watch := inv.watch thread cutoff (by rw [deleting]; rfl)
  rw [deleting] at watch
  have commits : SessionThread.commits .idle = (s.threads thread).commits := by
    rw [deleting]
    rfl
  refine inv_expiring inv rfl commits rfl rfl rfl rfl (fun _ _ found => found)
    (fun _ cached => .inl cached) (fun _ _ found => found) inv.known
    (fun _ impossible => by cases impossible) ?_
  intro cutoff' same
  cases same
  have swept : Watch timeout s cutoff .idle :=
    ⟨watch.early, watch.condemned, watch.forgets, watch.awaited, watch.disk⟩
  exact swept.transport (Int.le_refl _) (fun _ cached => cached) rfl rfl
    (committing_update rfl commits)

theorem inv_advance (inv : Inv timeout s) (running : s.finished = none)
    (undisturbed : ∀ key, (s.threads thread).commits = some key → ∀ other,
      key ∉ (s.threads other).condemned ∧ (s.threads other).forgets ≠ some key) :
    Inv timeout (s.advance thread) := by
  unfold advance
  split
  · exact inv
  · rename_i key busy
    exact inv_storeTime inv busy (undisturbed key (by rw [busy]; rfl)) running
  · rename_i cutoff expired scanning
    have watch := inv.watch thread cutoff (by rw [scanning]; rfl)
    rw [scanning] at watch
    refine inv_setThread inv (by rw [scanning]; rfl) running ?_
    intro cutoff' same
    cases same
    exact ⟨watch.early, watch.condemned, watch.forgets, watch.awaited, watch.disk⟩
  · exact inv
  · rename_i cutoff deleting
    exact inv_finish inv deleting
  · rename_i cutoff key rest deleting
    exact inv_deleteCache inv running deleting
  · rename_i cutoff key rest forgetting
    exact inv_deleteTime inv running forgetting

theorem inv_step (inv : Inv timeout s) {event : SessionEvent}
    (undisturbed : s.Undisturbed timeout event) : Inv timeout (s.step timeout event) := by
  have cleared := inv_clear inv
  cases event with
  | tick now => exact inv_tick inv now
  | commit thread group topic partition offset =>
    simp only [step]
    split
    · rename_i idle
      exact inv_storeCache cleared idle offset undisturbed rfl
    · exact cleared
  | expire thread =>
    simp only [step]
    split
    · rename_i idle
      refine inv_setThread cleared (by rw [idle]; rfl) rfl ?_
      intro cutoff same
      cases same
      exact watch_begin cleared undisturbed.1 undisturbed.2
    · exact cleared
  | visit thread key => exact inv_visit cleared rfl undisturbed
  | advance thread => exact inv_advance cleared rfl undisturbed

end Steps

/-! ## Whole runs -/

theorem inv_start (timeout : Int) (db : AList fun _ : Bytes => Bytes) (dumpInterval : Int)
    (now : Time) (earlier : Bytes → Time) :
    Inv timeout (start db dumpInterval now earlier) := by
  refine ⟨?_, fun _ _ found => found, ?_, ?_, ?_, ?_, ?_⟩
  · intro key time impossible
    cases impossible
  · intro key time committed
    obtain ⟨offset, found, -⟩ := Option.map_eq_some_iff.mp committed
    exact .inl (AList.lookup_isSome.mp (Option.isSome_iff_exists.mpr ⟨offset, found⟩))
  · intro key _ impossible
    cases impossible
  · rintro key ⟨thread, impossible⟩
    cases impossible
  · intro thread cutoff impossible
    cases impossible
  · intro cutoff impossible
    cases impossible

/-- In every run without disturbances, from any database, whatever is found
when an `ExpireSessions` has finished is accurate. -/
theorem expiry_accurate_of_undisturbed (timeout : Int) (db : AList fun _ : Bytes => Bytes)
    (dumpInterval : Int) (now : Time) (earlier : Bytes → Time) (events : List SessionEvent)
    (undisturbed : Runs.Guarded (step timeout) (Undisturbed timeout)
      (start db dumpInterval now earlier) events) :
    ∀ s ∈ Runs.states (step timeout) (start db dumpInterval now earlier) events,
      s.Accurate timeout := by
  intro s member
  apply accurate_of_inv
  exact Runs.invariant_states (fun s event (inv : Inv timeout s) guard => inv_step inv guard) events
    _ (inv_start timeout db dumpInterval now earlier) undisturbed s member

/-! ## Samples -/

/-- A group commits, and a hundred seconds later an `ExpireSessions` finds its
offset expired. -/
def foundExpired : List SessionEvent :=
  [.commit 0 [103] [116] 0 5, .advance 0, .tick 100, .expire 1,
    .visit 1 (bucketKey [116] 0 [103])]

theorem expiry_accurate_of_undisturbed_sample :
    let s := Runs.final (step 10) (start ∅ 0 0 fun _ => 0)
      (foundExpired ++ List.replicate 4 (.advance 1))
    s.finished = some 90 ∧ s.Accurate 10 := by
  refine ⟨rfl, expiry_accurate_of_undisturbed 10 ∅ 0 0 _ _ ?_ _ (Runs.final_mem_states ..)⟩
  refine ⟨fun _ => List.not_mem_nil, ?_, trivial, ⟨by decide, ?_⟩, ?_, ?_, ?_, ?_, ?_, trivial⟩
  · intro key _ other
    rcases other with _ | other
    · exact ⟨List.not_mem_nil, fun impossible => by cases impossible⟩
    · exact ⟨List.not_mem_nil, fun impossible => by cases impossible⟩
  · intro key cached unread
    have own : key = bucketKey [116] 0 [103] := by
      rcases (AList.mem_insert _).mp cached with same | impossible
      · exact same
      · exact absurd impossible (AList.notMem_empty _)
    subst own
    cases unread
  · rintro cutoff time - - - ⟨other, commits⟩
    rcases other with _ | _ | other
    · cases commits
    · cases commits
    · cases commits
  · exact fun key impossible => by cases impossible
  · exact fun key impossible => by cases impossible
  · exact fun key impossible => by cases impossible
  · exact fun key impossible => by cases impossible

/-- A commit between the scan and the deletions is lost, and an offset that was
read from the database is never expired. -/
theorem live_commit_discarded :
    (let s := Runs.final (step 10) (start ∅ 0 0 fun _ => 0)
      (foundExpired ++ [.commit 0 [103] [116] 0 7, .advance 0] ++ List.replicate 4 (.advance 1))
    s.now = 100 ∧ s.finished = some 90 ∧ s.latest (bucketKey [116] 0 [103]) = some 100 ∧
      s.store.load [103] [116] 0 = .error (.offsetNotFound [116] 0 [103]) ∧ ¬ s.Accurate 10) ∧
    (let s := Runs.final (step 10)
      (start (AList.insert (badgerKey (bucketKey [116] 0 [103])) (BigEndian.putUint64 5) ∅) 0 0
        fun _ => 0) [.tick 100, .expire 1, .advance 1, .advance 1]
    s.finished = some 90 ∧ s.latest (bucketKey [116] 0 [103]) = some 0 ∧
      s.store.load [103] [116] 0 = .ok 5 ∧ ¬ s.Accurate 10) := by
  refine ⟨⟨rfl, rfl, rfl, by decide, ?_⟩, rfl, by decide, by decide, ?_⟩
  · intro accurate
    obtain ⟨offset, -, loaded⟩ := (accurate 90 rfl [103] [116] 0 100 rfl).1 (by decide)
    cases loaded
  · intro accurate
    refine (accurate 90 rfl [103] [116] 0 0 (by decide)).2 (by decide) ?_ 5 (by decide)
    rintro ⟨other, commits⟩
    rcases other with _ | _ | other
    · cases commits
    · cases commits
    · cases commits

end SessionRun

end NyaQueue
