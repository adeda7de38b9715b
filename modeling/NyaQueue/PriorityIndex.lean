import NyaQueue.EntryRing
import Mathlib.Data.List.FinRange

/-!
# The priority index

Model of `PriorityIndex` in `pkg/broker/priority_index.go`, one call at a time.
The work done under one level lock is a function of that level alone
(`PriorityLevel.push`, `pop`, `keepFresh`, `pushStale`), so that the interleaved
model can take the same critical sections as its steps.  `contents` is the
abstract view: one queue for each level.
-/

set_option autoImplicit false

namespace NyaQueue

abbrev maxPriority : Nat := 10

abbrev Level := Fin maxPriority

structure PriorityLevel where
  ring : EntryRing
  count : Int32

/-- `now.Sub(t)`: the difference, saturated to the range of a 64-bit duration. -/
def timeSub (now t : Time) : Int := max (-2 ^ 63) (min (2 ^ 63 - 1) (now - t))

def isStale (now : Time) (ttl : Int) (e : PendingEntry) : Bool :=
  decide (timeSub now e.arrivedAt > ttl)

namespace PriorityLevel

/-- The critical section of `Add`. -/
def push (lv : PriorityLevel) (e : PendingEntry) : PriorityLevel × Option PendingEntry :=
  let pushed := lv.ring.pushBack e
  match pushed.2 with
  | some evicted => ({ ring := pushed.1, count := lv.count }, some evicted)
  | none => ({ ring := pushed.1, count := lv.count + 1 }, none)

/-- The critical section of a pop. -/
def pop (lv : PriorityLevel) : PriorityLevel × Option PendingEntry :=
  let popped := lv.ring.popFront
  match popped.2 with
  | some e => ({ ring := popped.1, count := lv.count - 1 }, some e)
  | none => (lv, none)

def stale (lv : PriorityLevel) (now : Time) (ttl : Int) : List PendingEntry :=
  lv.ring.linearize.filter (isStale now ttl)

def fresh (lv : PriorityLevel) (now : Time) (ttl : Int) : List PendingEntry :=
  lv.ring.linearize.filter fun e => !isStale now ttl e

/-- The first critical section of `PromoteStale`: keep the fresh entries. -/
def keepFresh (lv : PriorityLevel) (now : Time) (ttl : Int) : PriorityLevel where
  ring := lv.ring.resetFrom (lv.fresh now ttl)
  count := Int32.ofNat (lv.fresh now ttl).length

end PriorityLevel

/-- The loop of the second critical section of `PromoteStale`, with the
entries it evicts. -/
def pushStale : EntryRing → List PendingEntry → EntryRing × List PendingEntry
  | ring, [] => (ring, [])
  | ring, e :: rest =>
      let pushed := ring.pushBack e
      let later := pushStale pushed.1 rest
      (later.1, pushed.2.toList ++ later.2)

structure PriorityIndex where
  levels : Level → PriorityLevel
  total : Int64
  maxPerLevel : Int

/-- `NewPriorityIndex(WithMaxPerLevel(maxPerLevel))`; a bound that is not
positive leaves the levels unbounded. -/
def newPriorityIndex (maxPerLevel : Int) : PriorityIndex where
  levels _ := { ring := EntryRing.new maxPerLevel.toNat, count := 0 }
  total := 0
  maxPerLevel := maxPerLevel

def clampLevel (priority : Int) : Level :=
  if priority < 0 then 0
  else if inside : priority < 10 then ⟨priority.toNat, by change _ < 10; omega⟩
  else 9

/-- Levels `9` down to `threshold`. -/
def levelsDownTo (threshold : Int) : List Level :=
  (List.finRange maxPriority).reverse.filter fun p => decide (threshold ≤ (p.val : Int))

/-- Levels `0` up to, but not including, `threshold`. -/
def levelsBelow (threshold : Int) : List Level :=
  (List.finRange maxPriority).filter fun p => decide ((p.val : Int) < threshold)

namespace PriorityIndex

def setLevel (pi : PriorityIndex) (p : Level) (lv : PriorityLevel) : PriorityIndex :=
  { pi with levels := Function.update pi.levels p lv }

def addTotal (pi : PriorityIndex) (delta : Int64) : PriorityIndex :=
  { pi with total := pi.total + delta }

def contents (pi : PriorityIndex) (p : Level) : List PendingEntry :=
  (pi.levels p).ring.linearize

def len (pi : PriorityIndex) : Int := pi.total.toInt

def add (pi : PriorityIndex) (priority : Int) (offset : Int64) (arrivedAt : Time) :
    PriorityIndex × Bool :=
  let p := clampLevel priority
  let pushed := (pi.levels p).push { walOffset := offset, arrivedAt := arrivedAt }
  match pushed.2 with
  | some _ => (pi.setLevel p pushed.1, false)
  | none => ((pi.setLevel p pushed.1).addTotal 1, true)

/-- The loop that pops the front of the first non-empty level. -/
def popFirst (pi : PriorityIndex) : List Level → PriorityIndex × Option PendingEntry
  | [] => (pi, none)
  | p :: rest =>
      let popped := (pi.levels p).pop
      match popped.2 with
      | some e => ((pi.setLevel p popped.1).addTotal (-1), some e)
      | none => popFirst pi rest

def popHighest (pi : PriorityIndex) : PriorityIndex × Option PendingEntry :=
  pi.popFirst (levelsDownTo 0)

/-- The second loop of `PopWithThreshold`: the level whose front arrived first,
the lowest one on ties. -/
def oldestFront (pi : PriorityIndex) (best : Option (Level × Time)) :
    List Level → Option (Level × Time)
  | [] => best
  | p :: rest =>
      match (pi.levels p).ring.peekFront with
      | none => oldestFront pi best rest
      | some e =>
          match best with
          | none => oldestFront pi (some (p, e.arrivedAt)) rest
          | some (q, bestTime) =>
              if e.arrivedAt < bestTime then oldestFront pi (some (p, e.arrivedAt)) rest
              else oldestFront pi (some (q, bestTime)) rest

def popWithThreshold (pi : PriorityIndex) (threshold : Int) :
    PriorityIndex × Option PendingEntry :=
  let high := pi.popFirst (levelsDownTo threshold)
  match high.2 with
  | some e => (high.1, some e)
  | none =>
      match pi.oldestFront none (levelsBelow threshold) with
      | none => (pi, none)
      | some (p, _) =>
          let popped := (pi.levels p).pop
          ((pi.setLevel p popped.1).addTotal (-1), popped.2)

def promoteLevel (pi : PriorityIndex) (now : Time) (ttl : Int) (p : Fin 9) : PriorityIndex :=
  let low : Level := p.castSucc
  let up : Level := p.succ
  let stale := (pi.levels low).stale now ttl
  let kept := pi.setLevel low ((pi.levels low).keepFresh now ttl)
  if stale = [] then kept
  else
    let pushed := pushStale (kept.levels up).ring stale
    (kept.setLevel up { ring := pushed.1, count := Int32.ofNat pushed.1.size }).addTotal
      (-Int64.ofNat pushed.2.length)

/-- Levels `8` down to `0`, each moving its stale entries one level up. -/
def promoteStale (pi : PriorityIndex) (now : Time) (ttl : Int) : PriorityIndex :=
  (List.finRange 9).reverse.foldl (fun pi p => pi.promoteLevel now ttl p) pi

/-! ## The abstract view -/

/-- Every level has the capacity the index was built with. -/
def Capacity (pi : PriorityIndex) (capacity : Nat) : Prop :=
  ∀ p, (pi.levels p).ring.cap = capacity

variable (pi : PriorityIndex)

@[simp] theorem setLevel_levels_self (p : Level) (lv : PriorityLevel) :
    (pi.setLevel p lv).levels p = lv :=
  Function.update_self ..

theorem setLevel_levels_ne {p q : Level} (different : q ≠ p) (lv : PriorityLevel) :
    (pi.setLevel p lv).levels q = pi.levels q :=
  Function.update_of_ne different ..

@[simp] theorem addTotal_contents (delta : Int64) :
    (pi.addTotal delta).contents = pi.contents := rfl

theorem setLevel_contents (p : Level) (lv : PriorityLevel) :
    (pi.setLevel p lv).contents = Function.update pi.contents p lv.ring.linearize := by
  funext q
  by_cases same : q = p
  · subst same
    rw [Function.update_self, contents, setLevel_levels_self]
  · rw [Function.update_of_ne same, contents, setLevel_levels_ne pi same, contents]

theorem Capacity.setLevel {pi : PriorityIndex} {capacity : Nat} (same : pi.Capacity capacity)
    (p : Level) {lv : PriorityLevel} (cap : lv.ring.cap = capacity) :
    (pi.setLevel p lv).Capacity capacity := by
  intro q
  by_cases at_p : q = p
  · subst at_p
    rw [setLevel_levels_self, cap]
  · rw [setLevel_levels_ne pi at_p, same q]

theorem Capacity.addTotal {pi : PriorityIndex} {capacity : Nat} (same : pi.Capacity capacity)
    (delta : Int64) : (pi.addTotal delta).Capacity capacity := same

theorem newPriorityIndex_contents (maxPerLevel : Int) (p : Level) :
    (newPriorityIndex maxPerLevel).contents p = [] := rfl

theorem newPriorityIndex_capacity (maxPerLevel : Int) :
    (newPriorityIndex maxPerLevel).Capacity maxPerLevel.toNat := fun _ => rfl

end PriorityIndex

namespace PriorityLevel

variable (lv : PriorityLevel) (e : PendingEntry)

theorem push_eq :
    lv.push e = ({ ring := (lv.ring.pushBack e).1
                   count := if (lv.ring.pushBack e).2 = none then lv.count + 1 else lv.count },
      (lv.ring.pushBack e).2) := by
  rw [push]
  cases (lv.ring.pushBack e).2 <;> rfl

theorem push_linearize :
    (lv.push e).1.ring.linearize = (BoundedQueue.push lv.ring.cap lv.ring.linearize e).1 := by
  rw [push_eq, EntryRing.pushBack_linearize]

theorem push_evicted :
    (lv.push e).2 = (BoundedQueue.push lv.ring.cap lv.ring.linearize e).2 := by
  rw [push_eq, EntryRing.pushBack_evicted]

theorem push_cap :
    (lv.push e).1.ring.cap = lv.ring.cap := by
  rw [push_eq, EntryRing.pushBack_cap]

theorem pop_of_empty {lv : PriorityLevel} (empty : lv.ring.linearize = []) :
    lv.pop = (lv, none) := by
  simp [pop, EntryRing.popFront_of_empty empty]

theorem pop_of_cons {lv : PriorityLevel} {oldest : PendingEntry} {rest : List PendingEntry}
    (queued : lv.ring.linearize = oldest :: rest) :
    lv.pop.2 = some oldest ∧ lv.pop.1.ring.linearize = rest ∧
      lv.pop.1.ring.cap = lv.ring.cap ∧ lv.pop.1.count = lv.count - 1 := by
  obtain ⟨front, tail, cap⟩ := EntryRing.popFront_of_cons queued
  unfold pop
  dsimp only
  rw [front]
  exact ⟨rfl, tail, cap, rfl⟩

end PriorityLevel

namespace PriorityIndex

theorem add_contents (pi : PriorityIndex) (priority : Int) (offset : Int64) (arrivedAt : Time) :
    (pi.add priority offset arrivedAt).1.contents =
      Function.update pi.contents (clampLevel priority)
        (BoundedQueue.push (pi.levels (clampLevel priority)).ring.cap
          (pi.contents (clampLevel priority)) ⟨offset, arrivedAt⟩).1 := by
  have level := PriorityLevel.push_linearize (pi.levels (clampLevel priority))
    ⟨offset, arrivedAt⟩
  unfold add
  dsimp only
  cases ((pi.levels (clampLevel priority)).push ⟨offset, arrivedAt⟩).2 with
  | none =>
    dsimp only
    rw [addTotal_contents, setLevel_contents, level]
    rfl
  | some evicted =>
    dsimp only
    rw [setLevel_contents, level]
    rfl

theorem add_capacity {pi : PriorityIndex} {capacity : Nat} (same : pi.Capacity capacity)
    (priority : Int) (offset : Int64) (arrivedAt : Time) :
    (pi.add priority offset arrivedAt).1.Capacity capacity := by
  have level : (((pi.levels (clampLevel priority)).push ⟨offset, arrivedAt⟩).1).ring.cap =
      capacity := by
    rw [PriorityLevel.push_cap, same]
  unfold add
  dsimp only
  cases ((pi.levels (clampLevel priority)).push ⟨offset, arrivedAt⟩).2 with
  | none => exact same.setLevel _ level
  | some evicted => exact same.setLevel _ level

theorem pop_contents {pi : PriorityIndex} {p : Level} {e : PendingEntry}
    {rest : List PendingEntry} (queued : pi.contents p = e :: rest) :
    ((pi.setLevel p (pi.levels p).pop.1).addTotal (-1)).contents =
      Function.update pi.contents p rest := by
  rw [addTotal_contents, setLevel_contents, (PriorityLevel.pop_of_cons queued).2.1]

/-- What one pop does: nothing when all tried levels are empty, otherwise it
takes the front of the first non-empty one. -/
theorem popFirst_cases (pi : PriorityIndex) (tried : List Level) :
    ((∀ p ∈ tried, pi.contents p = []) ∧ pi.popFirst tried = (pi, none)) ∨
    ∃ before p after e rest, tried = before ++ p :: after ∧
      (∀ q ∈ before, pi.contents q = []) ∧ pi.contents p = e :: rest ∧
      (pi.popFirst tried).2 = some e ∧
      (pi.popFirst tried).1 = (pi.setLevel p (pi.levels p).pop.1).addTotal (-1) := by
  induction tried with
  | nil => exact .inl ⟨by simp, rfl⟩
  | cons p after ih =>
    cases queued : pi.contents p with
    | nil =>
      have skip : pi.popFirst (p :: after) = pi.popFirst after := by
        rw [popFirst, PriorityLevel.pop_of_empty queued]
      rw [skip]
      rcases ih with ⟨empty, same⟩ | ⟨before, q, later, e, rest, split, empty, found⟩
      · refine .inl ⟨?_, same⟩
        intro q member
        rcases List.mem_cons.mp member with rfl | member
        · exact queued
        · exact empty q member
      · refine .inr ⟨p :: before, q, later, e, rest, by rw [split]; rfl, ?_, found⟩
        intro r member
        rcases List.mem_cons.mp member with rfl | member
        · exact queued
        · exact empty r member
    | cons e rest =>
      obtain ⟨front, -⟩ := PriorityLevel.pop_of_cons queued
      refine .inr ⟨[], p, after, e, rest, rfl, by simp, queued, ?_, ?_⟩
      · simp only [popFirst, front]
      · simp only [popFirst, front]

end PriorityIndex

end NyaQueue
