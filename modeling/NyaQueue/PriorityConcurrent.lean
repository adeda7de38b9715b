import NyaQueue.PriorityAccounting

/-!
# The priority index under concurrency

Any number of calls on one index, interleaved.  A step is a critical section
of one level, an atomic update of `total`, or, where `PromoteStale` and the
second loop of `PopWithThreshold` keep a level locked for longer, one piece of
work under that lock.  A call is a thread that remembers what its goroutine
has in local variables; threads that have returned stay in the list with their
results.
-/

set_option autoImplicit false

namespace NyaQueue

inductive IndexCall where
  | add (priority : Int) (offset : Int64) (arrivedAt : Time)
  | popHighest
  | popWithThreshold (threshold : Fin 11)
  | promoteStale (now : Time) (ttl : Int)

/-- Where a call stands, with its local variables. -/
inductive Thread where
  /-- before the critical section of `Add` -/
  | add (p : Level) (e : PendingEntry)
  /-- added to a free slot, before `total.Add(1)` -/
  | addTotal (e : PendingEntry)
  | addReturned (e : PendingEntry) (free : Bool)
  /-- the loop over the levels from the top, and the levels of the second loop -/
  | popHigh (tried below : List Level)
  /-- the second loop of `PopWithThreshold`; the best level so far stays locked -/
  | peek (best : Option (Level × Time)) (tried : List Level)
  /-- popped, before `total.Add(-1)` -/
  | popTotal (e : PendingEntry)
  | popReturned (result : Option PendingEntry)
  /-- before the critical section of the next lower level -/
  | promote (now : Time) (ttl : Int) (todo : List (Fin 9))
  /-- holding stale entries, before the upper level is locked -/
  | promoteUp (now : Time) (ttl : Int) (p : Fin 9) (stale : List PendingEntry)
      (todo : List (Fin 9))
  /-- pushing stale entries to the locked upper level -/
  | promotePush (now : Time) (ttl : Int) (p : Fin 9) (stale : List PendingEntry)
      (todo : List (Fin 9))
  /-- an entry was evicted, before `total.Add(-1)` under the lock -/
  | promoteEvicted (now : Time) (ttl : Int) (p : Fin 9) (stale : List PendingEntry)
      (todo : List (Fin 9))
  | promoteReturned

namespace Thread

def start : IndexCall → Thread
  | .add priority offset arrivedAt => .add (clampLevel priority) ⟨offset, arrivedAt⟩
  | .popHighest => .popHigh (levelsDownTo 0) []
  | .popWithThreshold threshold => .popHigh (levelsDownTo threshold.val) (levelsBelow threshold.val)
  | .promoteStale now ttl => .promote now ttl (List.finRange 9).reverse

/-- The level the thread keeps locked between its steps. -/
def holds : Thread → Option Level
  | .peek (some (p, _)) _ => some p
  | .promotePush _ _ p _ _ => some p.succ
  | .promoteEvicted _ _ p _ _ => some p.succ
  | _ => none

/-- The level the thread is pushing to, whose count is out of date. -/
def pushing : Thread → Option Level
  | .promotePush _ _ p _ _ => some p.succ
  | .promoteEvicted _ _ p _ _ => some p.succ
  | _ => none

/-- The level whose front the thread is about to pop. -/
def best : Thread → Option Level
  | .peek (some (p, _)) _ => some p
  | _ => none

def returned : Thread → Bool
  | .addReturned _ _ => true
  | .popReturned _ => true
  | .promoteReturned => true
  | _ => false

/-- The entry the call has put into the index. -/
def inserted : Thread → Multiset PendingEntry
  | .addTotal e => {e}
  | .addReturned e _ => {e}
  | _ => 0

/-- The entry the call has popped and returns. -/
def taken : Thread → Multiset PendingEntry
  | .popTotal e => {e}
  | .popReturned (some e) => {e}
  | _ => 0

/-- The local stale list of a running `PromoteStale`. -/
def held : Thread → Multiset PendingEntry
  | .promoteUp _ _ _ stale _ => stale
  | .promotePush _ _ _ stale _ => stale
  | .promoteEvicted _ _ _ stale _ => stale
  | _ => 0

/-- By how much `total` runs ahead of the levels on account of the thread. -/
def surplus : Thread → Int
  | .addTotal _ => -1
  | .popTotal _ => 1
  | .promoteUp _ _ _ stale _ => stale.length
  | .promotePush _ _ _ stale _ => stale.length
  | .promoteEvicted _ _ _ stale _ => stale.length + 1
  | _ => 0

end Thread

structure Machine where
  index : PriorityIndex
  /-- the thread that keeps a level locked between two of its steps -/
  owner : Level → Option Nat
  threads : List Thread
  /-- the entries dropped so far -/
  evicted : Multiset PendingEntry

inductive MachineEvent where
  | start (call : IndexCall)
  | run (i : Nat)

namespace Machine

def init (maxPerLevel : Int) : Machine where
  index := newPriorityIndex maxPerLevel
  owner _ := none
  threads := []
  evicted := 0

/-- Thread `i` goes on as `t`. -/
def resume (m : Machine) (i : Nat) (t : Thread) : Machine :=
  { m with threads := m.threads.set i t }

def setLevel (m : Machine) (p : Level) (lv : PriorityLevel) : Machine :=
  { m with index := m.index.setLevel p lv }

def addTotal (m : Machine) (delta : Int64) : Machine :=
  { m with index := m.index.addTotal delta }

def setOwner (m : Machine) (p : Level) (owner : Option Nat) : Machine :=
  { m with owner := Function.update m.owner p owner }

def drop (m : Machine) (e : Option PendingEntry) : Machine :=
  { m with evicted := m.evicted + (e.toList : Multiset PendingEntry) }

/-- The critical section of `Add`. -/
def stepAdd (m : Machine) (i : Nat) (p : Level) (e : PendingEntry) : Machine :=
  if m.owner p = none then
    let pushed := (m.index.levels p).push e
    match pushed.2 with
    | some old => ((m.setLevel p pushed.1).drop (some old)).resume i (.addReturned e false)
    | none => (m.setLevel p pushed.1).resume i (.addTotal e)
  else m

/-- The critical section of a pop. -/
def stepPop (m : Machine) (i : Nat) (p : Level) (tried below : List Level) : Machine :=
  if m.owner p = none then
    let popped := (m.index.levels p).pop
    match popped.2 with
    | some e => (m.setLevel p popped.1).resume i (.popTotal e)
    | none => m.resume i (.popHigh tried below)
  else m

/-- One round of the second loop of `PopWithThreshold`: the level stays locked
if its front is the oldest so far, and then the previous best is unlocked. -/
def stepPeek (m : Machine) (i : Nat) (best : Option (Level × Time)) (p : Level)
    (tried : List Level) : Machine :=
  if m.owner p = none then
    match (m.index.levels p).ring.peekFront with
    | none => m.resume i (.peek best tried)
    | some e =>
        match best with
        | none => (m.setOwner p (some i)).resume i (.peek (some (p, e.arrivedAt)) tried)
        | some (q, bestTime) =>
            if e.arrivedAt < bestTime then
              ((m.setOwner q none).setOwner p (some i)).resume i
                (.peek (some (p, e.arrivedAt)) tried)
            else m.resume i (.peek (some (q, bestTime)) tried)
  else m

/-- The pop at the best level, locked since its front was seen. -/
def stepBest (m : Machine) (i : Nat) (p : Level) : Machine :=
  let lv := m.index.levels p
  let popped := lv.ring.popFront
  ((m.setLevel p { ring := popped.1, count := lv.count - 1 }).setOwner p none).resume i
    (.popTotal (popped.2.getD default))

/-- The first critical section of a round of `PromoteStale`. -/
def stepTake (m : Machine) (i : Nat) (now : Time) (ttl : Int) (p : Fin 9) (todo : List (Fin 9)) :
    Machine :=
  if m.owner p.castSucc = none then
    let lv := m.index.levels p.castSucc
    let m' := m.setLevel p.castSucc (lv.keepFresh now ttl)
    if lv.stale now ttl = [] then m'.resume i (.promote now ttl todo)
    else m'.resume i (.promoteUp now ttl p (lv.stale now ttl) todo)
  else m

def stepLockUp (m : Machine) (i : Nat) (now : Time) (ttl : Int) (p : Fin 9)
    (stale : List PendingEntry) (todo : List (Fin 9)) : Machine :=
  if m.owner p.succ = none then
    (m.setOwner p.succ (some i)).resume i (.promotePush now ttl p stale todo)
  else m

/-- One `pushBack` to the locked upper level. -/
def stepPush (m : Machine) (i : Nat) (now : Time) (ttl : Int) (p : Fin 9) (e : PendingEntry)
    (stale : List PendingEntry) (todo : List (Fin 9)) : Machine :=
  let lv := m.index.levels p.succ
  let pushed := lv.ring.pushBack e
  let m' := (m.setLevel p.succ { ring := pushed.1, count := lv.count }).drop pushed.2
  match pushed.2 with
  | some _ => m'.resume i (.promoteEvicted now ttl p stale todo)
  | none => m'.resume i (.promotePush now ttl p stale todo)

/-- The upper level gets its count and is unlocked. -/
def stepUnlockUp (m : Machine) (i : Nat) (now : Time) (ttl : Int) (p : Fin 9)
    (todo : List (Fin 9)) : Machine :=
  let ring := (m.index.levels p.succ).ring
  ((m.setLevel p.succ { ring := ring, count := Int32.ofNat ring.size }).setOwner
    p.succ none).resume i (.promote now ttl todo)

/-- One step of thread `i`, which stands at `t`; a thread that waits for a lock
does nothing. -/
def stepThread (m : Machine) (i : Nat) : Thread → Machine
  | .add p e => m.stepAdd i p e
  | .addTotal e => (m.addTotal 1).resume i (.addReturned e true)
  | .addReturned _ _ => m
  | .popHigh [] below => m.resume i (.peek none below)
  | .popHigh (p :: tried) below => m.stepPop i p tried below
  | .peek best (p :: tried) => m.stepPeek i best p tried
  | .peek none [] => m.resume i (.popReturned none)
  | .peek (some (p, _)) [] => m.stepBest i p
  | .popTotal e => (m.addTotal (-1)).resume i (.popReturned (some e))
  | .popReturned _ => m
  | .promote _ _ [] => m.resume i .promoteReturned
  | .promote now ttl (p :: todo) => m.stepTake i now ttl p todo
  | .promoteUp now ttl p stale todo => m.stepLockUp i now ttl p stale todo
  | .promotePush now ttl p [] todo => m.stepUnlockUp i now ttl p todo
  | .promotePush now ttl p (e :: stale) todo => m.stepPush i now ttl p e stale todo
  | .promoteEvicted now ttl p stale todo =>
      (m.addTotal (-1)).resume i (.promotePush now ttl p stale todo)
  | .promoteReturned => m

def step (m : Machine) : MachineEvent → Machine
  | .start call => { m with threads := m.threads ++ [Thread.start call] }
  | .run i =>
      match m.threads[i]? with
      | none => m
      | some t => m.stepThread i t

/-- No call is in progress. -/
def Quiescent (m : Machine) : Prop := ∀ t ∈ m.threads, t.returned = true

/-- The sum of a quantity over all calls. -/
def sum {M : Type} [AddCommMonoid M] (m : Machine) (f : Thread → M) : M := (m.threads.map f).sum

/-- The number of entries in all rings. -/
def size (m : Machine) : Int := ∑ p : Level, ((m.index.contents p).length : Int)

end Machine

end NyaQueue
