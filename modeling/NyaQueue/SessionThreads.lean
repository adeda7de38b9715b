import NyaQueue.OffsetStore
import NyaQueue.Lib.Runs

/-!
# Commits and session expiry, one map operation at a time

`Commit` stores an offset in one map and its time in another; `ExpireSessions`
scans the second map and then deletes from both.  Here any number of such calls
run at once, one map operation at a time, all with one timeout and a clock that
does not go back.  Next to the store the state records what the calls were
asked to do: the time of the latest completed commit of every key, the offset
last stored, and whether a commit of this process has touched the key.  A call
that nothing interrupts does what the offset store says it does.
-/

set_option autoImplicit false

namespace NyaQueue

/-- A call between two of its map operations. -/
inductive SessionThread where
  | idle
  /-- a `Commit` whose offset is in the cache -/
  | committing (key : Bytes)
  /-- an `ExpireSessions` during its `Range` -/
  | scanning (cutoff : Time) (todo expired : List Bytes)
  /-- … before the deletion of the first of the keys from the cache -/
  | deleting (cutoff : Time) (expired : List Bytes)
  /-- … and before the deletion of its time -/
  | forgetting (cutoff : Time) (key : Bytes) (rest : List Bytes)

namespace SessionThread

def commits : SessionThread → Option Bytes
  | .committing key => some key
  | _ => none

/-- The cutoff of an `ExpireSessions`. -/
def cutoff : SessionThread → Option Time
  | .scanning cutoff _ _ => some cutoff
  | .deleting cutoff _ => some cutoff
  | .forgetting cutoff _ _ => some cutoff
  | _ => none

/-- The keys that will be deleted from the cache. -/
def condemned : SessionThread → List Bytes
  | .scanning _ _ expired => expired
  | .deleting _ expired => expired
  | .forgetting _ _ rest => rest
  | _ => []

/-- The key whose time is deleted next. -/
def forgets : SessionThread → Option Bytes
  | .forgetting _ key _ => some key
  | _ => none

/-- The keys that are still to be visited. -/
def unvisited : SessionThread → List Bytes
  | .scanning _ todo _ => todo
  | _ => []

end SessionThread

structure SessionRun where
  store : OffsetStore
  now : Time
  threads : Nat → SessionThread
  /-- when the latest completed commit of a key took place -/
  latest : Bytes → Option Time
  /-- the offset last stored for a key -/
  stored : Bytes → Option Int64
  /-- whether a commit of this process has stored an offset for the key -/
  touched : Bytes → Bool
  /-- the cutoff of the `ExpireSessions` that the last step has finished -/
  finished : Option Time

inductive SessionEvent where
  | tick (now : Time)
  | commit (thread : Nat) (group topic : Bytes) (partition : Int) (offset : Int64)
  | expire (thread : Nat)
  | visit (thread : Nat) (key : Bytes)
  | advance (thread : Nat)

namespace SessionRun

/-- A store read from a database, with the times at which its offsets were
committed by earlier processes. -/
def start (db : AList fun _ : Bytes => Bytes) (dumpInterval : Int) (now : Time)
    (earlier : Bytes → Time) : SessionRun :=
  let store := OffsetStore.newOffsetStore db dumpInterval
  { store := store
    now := now
    threads := fun _ => .idle
    latest := fun key => (store.cache.lookup key).map fun _ => earlier key
    stored := fun key => store.cache.lookup key
    touched := fun _ => false
    finished := none }

def setThread (s : SessionRun) (thread : Nat) (t : SessionThread) : SessionRun :=
  { s with threads := Function.update s.threads thread t }

def storeCache (s : SessionRun) (key : Bytes) (offset : Int64) : SessionRun :=
  { s with
    store := { s.store with cache := s.store.cache.insert key offset }
    stored := Function.update s.stored key (some offset)
    touched := Function.update s.touched key true }

def storeTime (s : SessionRun) (key : Bytes) : SessionRun :=
  { s with
    store := { s.store with lastCommit := s.store.lastCommit.insert key s.now }
    latest := Function.update s.latest key (some s.now) }

def deleteCache (s : SessionRun) (key : Bytes) : SessionRun :=
  { s with store := { s.store with cache := s.store.cache.erase key } }

def deleteTime (s : SessionRun) (key : Bytes) : SessionRun :=
  { s with store := { s.store with lastCommit := s.store.lastCommit.erase key } }

/-- The next map operation of a call that has begun. -/
def advance (s : SessionRun) (thread : Nat) : SessionRun :=
  match s.threads thread with
  | .idle => s
  | .committing key => (s.storeTime key).setThread thread .idle
  | .scanning cutoff [] expired => s.setThread thread (.deleting cutoff expired)
  | .scanning .. => s
  | .deleting cutoff [] => { s.setThread thread .idle with finished := some cutoff }
  | .deleting cutoff (key :: rest) =>
      (s.deleteCache key).setThread thread (.forgetting cutoff key rest)
  | .forgetting cutoff key rest => (s.deleteTime key).setThread thread (.deleting cutoff rest)

/-- The callback of `Range` for one key: it is expired if its time lies before
the cutoff. -/
def visit (s : SessionRun) (thread : Nat) (key : Bytes) : SessionRun :=
  match s.threads thread with
  | .scanning cutoff todo expired =>
      let old := (s.store.lastCommit.lookup key).any fun time => decide (time < cutoff)
      s.setThread thread
        (.scanning cutoff (todo.erase key) (if old then expired ++ [key] else expired))
  | _ => s

def step (timeout : Int) (s : SessionRun) : SessionEvent → SessionRun
  | .tick now => { s with now := max s.now now, finished := none }
  | .commit thread group topic partition offset =>
      let s := { s with finished := none }
      let key := bucketKey topic partition group
      match s.threads thread with
      | .idle => (s.storeCache key offset).setThread thread (.committing key)
      | _ => s
  | .expire thread =>
      let s := { s with finished := none }
      match s.threads thread with
      | .idle => s.setThread thread (.scanning (s.now - timeout) s.store.lastCommit.keys [])
      | _ => s
  | .visit thread key => { s with finished := none }.visit thread key
  | .advance thread => { s with finished := none }.advance thread

/-! ## Calls by themselves -/

section Alone

variable (timeout : Int) {s : SessionRun} {thread : Nat}

theorem commit_alone (idle : s.threads thread = .idle) (group topic : Bytes) (partition : Int)
    (offset : Int64) (written : Bool) :
    let s' := Runs.final (step timeout) s
      [.commit thread group topic partition offset, .advance thread]
    s'.store.cache = (s.store.commit group topic partition offset s.now written).2.cache ∧
      s'.store.lastCommit =
        (s.store.commit group topic partition offset s.now written).2.lastCommit := by
  have first : s.step timeout (.commit thread group topic partition offset) =
      ({ s with finished := none }.storeCache (bucketKey topic partition group) offset).setThread
        thread (.committing (bucketKey topic partition group)) := by
    simp only [step, idle]
  simp only [Runs.final, List.foldl_cons, List.foldl_nil, first]
  simp only [step, advance, setThread, Function.update_self, storeTime, storeCache]
  unfold OffsetStore.commit OffsetStore.writeOne
  dsimp only
  split
  · exact ⟨rfl, rfl⟩
  · split <;> exact ⟨rfl, rfl⟩

theorem scan_alone {cutoff : Time} (todo expired : List Bytes) (s : SessionRun)
    (scanning : s.threads thread = .scanning cutoff todo expired) :
    let s' := Runs.final (step timeout) s (todo.map fun key => .visit thread key)
    s'.store = s.store ∧ s'.threads thread = .scanning cutoff [] (expired ++ todo.filter fun key =>
      (s.store.lastCommit.lookup key).any fun time => decide (time < cutoff)) := by
  induction todo generalizing expired s with
  | nil => exact ⟨rfl, scanning.trans (by rw [List.filter_nil, List.append_nil])⟩
  | cons key rest ih =>
    have visited : s.step timeout (.visit thread key) = { s with finished := none }.setThread
        thread (.scanning cutoff rest (if (s.store.lastCommit.lookup key).any
          fun time => decide (time < cutoff) then expired ++ [key] else expired)) := by
      simp only [step, visit, scanning, List.erase_cons_head]
    obtain ⟨store, threads⟩ := ih _ (s.step timeout (.visit thread key))
      (by rw [visited]; exact Function.update_self ..)
    have same : (s.step timeout (.visit thread key)).store = s.store := by rw [visited]; rfl
    rw [same] at store threads
    refine ⟨store, threads.trans ?_⟩
    rw [List.filter_cons]
    split
    · rw [List.append_assoc]
      rfl
    · rfl

theorem delete_alone {cutoff : Time} (expired : List Bytes) (s : SessionRun)
    (deleting : s.threads thread = .deleting cutoff expired) :
    ∃ s', Runs.Repeats (step timeout) (.advance thread) s s' ∧
      s'.threads thread = .deleting cutoff [] ∧
      s'.store = { s.store with
        cache := Batches.eraseAll expired s.store.cache
        lastCommit := Batches.eraseAll expired s.store.lastCommit } := by
  induction expired generalizing s with
  | nil => exact ⟨s, Runs.Repeats.refl .., deleting, rfl⟩
  | cons key rest ih =>
    have first : s.step timeout (.advance thread) =
        ({ s with finished := none }.deleteCache key).setThread thread
          (.forgetting cutoff key rest) := by
      simp only [step, advance, deleting]
    have second : (s.step timeout (.advance thread)).step timeout (.advance thread) =
        (({ s with finished := none }.deleteCache key).deleteTime key).setThread thread
          (.deleting cutoff rest) := by
      rw [first]
      simp only [step, advance, setThread, Function.update_self, deleteCache, deleteTime,
        Function.update_idem]
    obtain ⟨s', repeats, ended, store⟩ := ih
      ((s.step timeout (.advance thread)).step timeout (.advance thread))
      (by rw [second]; exact Function.update_self ..)
    refine ⟨s', repeats.head.head, ended, store.trans ?_⟩
    rw [second]
    rfl

theorem expiredKeys_eq (store : OffsetStore) (cutoff : Time) :
    store.expiredKeys cutoff = store.lastCommit.keys.filter fun key =>
      (store.lastCommit.lookup key).any fun time => decide (time < cutoff) := by
  have keys : store.lastCommit.keys = store.lastCommit.entries.map Sigma.fst := rfl
  rw [keys, List.filter_map, OffsetStore.expiredKeys]
  congr 1
  apply List.filter_congr
  rintro ⟨key, time⟩ member
  have found : store.lastCommit.lookup key = some time := AList.mem_lookup_iff.mpr member
  simp only [Function.comp_apply, found, Option.any_some]

theorem expire_alone (idle : s.threads thread = .idle) :
    ∃ events, (Runs.final (step timeout) s events).finished = some (s.now - timeout) ∧
      (Runs.final (step timeout) s events).store = s.store.expireSessions s.now timeout := by
  have begun : s.step timeout (.expire thread) = { s with finished := none }.setThread thread
      (.scanning (s.now - timeout) s.store.lastCommit.keys []) := by
    simp only [step, idle]
  obtain ⟨store, scanned⟩ := scan_alone timeout s.store.lastCommit.keys []
    (s.step timeout (.expire thread)) (by rw [begun]; exact Function.update_self ..)
  have same : (s.step timeout (.expire thread)).store = s.store := by rw [begun]; rfl
  rw [same] at store scanned
  generalize visited : Runs.final (step timeout) (s.step timeout (.expire thread))
    (s.store.lastCommit.keys.map fun key => .visit thread key) = s₂ at store scanned
  rw [List.nil_append, ← expiredKeys_eq] at scanned
  have closed : s₂.step timeout (.advance thread) = { s₂ with finished := none }.setThread thread
      (.deleting (s.now - timeout) (s.store.expiredKeys (s.now - timeout))) := by
    simp only [step, advance, scanned]
  obtain ⟨s₃, ⟨n, repeats⟩, ended, deleted⟩ := delete_alone timeout _
    (s₂.step timeout (.advance thread)) (by rw [closed]; exact Function.update_self ..)
  have finish : s₃.step timeout (.advance thread) =
      { { s₃ with finished := none }.setThread thread .idle with
        finished := some (s.now - timeout) } := by
    simp only [step, advance, ended]
  have run : Runs.final (step timeout) s (.expire thread ::
      ((s.store.lastCommit.keys.map fun key => .visit thread key) ++ .advance thread ::
        (List.replicate n (.advance thread) ++ [.advance thread]))) =
      s₃.step timeout (.advance thread) := by
    rw [Runs.final_cons, Runs.final_append, visited, Runs.final_cons, Runs.final_append, repeats]
    rfl
  have kept : (s₂.step timeout (.advance thread)).store = s.store := by
    rw [closed]
    exact store
  rw [kept] at deleted
  refine ⟨_, by rw [run, finish], ?_⟩
  rw [run, finish]
  exact deleted

end Alone

end SessionRun

end NyaQueue
