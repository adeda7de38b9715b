import NyaQueue.Lib.Runs
import NyaQueue.Lib.Threads
import Mathlib.Data.List.Nodup
import Mathlib.Data.List.Perm.Basic

/-!
# Read-modify-write loops on a shared pointer

Any number of threads change a shared value in a loop: load the pointer, make a
new value from what it points at, and swap the pointer if it is still the one
loaded.  Every new value is a new allocation, so pointers are compared by a stamp
that no two allocations share.  `swaps` records the swaps that succeeded; the
value is what they make of the first one, one after the other.
-/

set_option autoImplicit false

namespace CasLoop

/-- An allocation and what it holds. -/
structure Cell (V : Type) where
  stamp : Nat
  value : V

inductive Thread (V U : Type) where
  | trying (u : U)
  | loaded (u : U) (seen : Cell V)
  | swapped (u : U) (old : V)

/-- A swap that has succeeded: by which thread, with which update, of which value. -/
structure Swap (V U : Type) where
  thread : Nat
  update : U
  old : V

structure Run (V U : Type) where
  cell : Cell V
  threads : List (Thread V U)
  /-- the last one first -/
  swaps : List (Swap V U)

inductive Event (U : Type) where
  | call (u : U)
  | advance (i : Nat)

variable {V U : Type} (update : U → V → V)

def Thread.asked : Thread V U → U
  | .trying u => u
  | .loaded u _ => u
  | .swapped u _ => u

namespace Run

def start (first : V) : Run V U := ⟨⟨0, first⟩, [], []⟩

/-- The updates that were asked for, by thread. -/
def calls (s : Run V U) : List U := s.threads.map Thread.asked

def resume (s : Run V U) (i : Nat) (thread : Thread V U) : Run V U :=
  { s with threads := s.threads.set i thread }

/-- The swap of a pointer that is still the one loaded. -/
def swap (s : Run V U) (i : Nat) (u : U) (old : V) : Run V U where
  cell := ⟨s.cell.stamp + 1, update u old⟩
  threads := s.threads.set i (.swapped u old)
  swaps := ⟨i, u, old⟩ :: s.swaps

def step (s : Run V U) : Event U → Run V U
  | .call u => { s with threads := s.threads ++ [.trying u] }
  | .advance i =>
      match s.threads[i]? with
      | some (.trying u) => s.resume i (.loaded u s.cell)
      | some (.loaded u seen) =>
          if seen.stamp = s.cell.stamp then s.swap update i u seen.value
          else s.resume i (.trying u)
      | _ => s

end Run

/-- `v` is what the swaps make of `first`, each of them starting from what the one
before has left. -/
def Chain (first : V) : List (Swap V U) → V → Prop
  | [], v => v = first
  | sw :: rest, v => v = update sw.update sw.old ∧ Chain first rest sw.old

structure Sound (first : V) (s : Run V U) : Prop where
  /-- a pointer that has not changed still points at what was loaded -/
  fresh : ∀ (i : Nat) (u : U) (seen : Cell V), s.threads[i]? = some (.loaded u seen) →
    seen.stamp ≤ s.cell.stamp ∧ (seen.stamp = s.cell.stamp → seen.value = s.cell.value)
  chain : Chain update first s.swaps s.cell.value
  recorded : ∀ (i : Nat) (u : U) (old : V),
    ⟨i, u, old⟩ ∈ s.swaps ↔ s.threads[i]? = some (.swapped u old)
  once : (s.swaps.map Swap.thread).Nodup

variable {update} {first : V} {s : Run V U}

theorem sound_start (update : U → V → V) (first : V) :
    Sound update first (Run.start first : Run V U) where
  fresh i u seen here := by simp [Run.start] at here
  chain := rfl
  recorded i u old := by simp [Run.start]
  once := List.nodup_nil

theorem Sound.call (sound : Sound update first s) (u : U) :
    Sound update first (s.step update (.call u)) := by
  -- the new thread has loaded and swapped nothing
  refine ⟨?_, sound.chain, ?_, sound.once⟩
  · intro i u' seen here
    exact sound.fresh i u' seen ((Threads.get_concat (by simp)).mp here)
  · intro i u' old
    exact (sound.recorded i u' old).trans (Threads.get_concat (by simp)).symm

theorem Sound.resume (sound : Sound update first s) {i : Nat} {before after : Thread V U}
    (here : s.threads[i]? = some before) (unswapped : ∀ u old, before ≠ .swapped u old)
    (unswapped' : ∀ u old, after ≠ .swapped u old)
    (fresh : ∀ u seen, after = .loaded u seen → seen.stamp ≤ s.cell.stamp ∧
      (seen.stamp = s.cell.stamp → seen.value = s.cell.value)) :
    Sound update first (s.resume i after) := by
  refine ⟨?_, sound.chain, ?_, sound.once⟩
  · intro j u seen there
    rcases Threads.of_set there with ⟨-, own⟩ | ⟨-, before⟩
    · exact fresh u seen own.symm
    · exact sound.fresh j u seen before
  · intro j u old
    rw [Run.resume, sound.recorded j u old, Threads.get_set here]
    by_cases same : j = i
    · subst same
      simp [here, unswapped u old, unswapped' u old]
    · rw [if_neg same]

theorem Sound.swap (sound : Sound update first s) {i : Nat} {u : U} {seen : Cell V}
    (here : s.threads[i]? = some (.loaded u seen)) (current : seen.stamp = s.cell.stamp) :
    Sound update first (s.swap update i u seen.value) := by
  have value := (sound.fresh i u seen here).2 current
  refine ⟨?_, ⟨rfl, value ▸ sound.chain⟩, ?_, ?_⟩
  · intro j u' seen' there
    rcases Threads.of_set there with ⟨-, own⟩ | ⟨-, before⟩
    · cases own
    · have earlier := (sound.fresh j u' seen' before).1
      simp only [Run.swap]
      exact ⟨by omega, fun impossible => by omega⟩
  · intro j u' old
    simp only [Run.swap, List.mem_cons, Swap.mk.injEq]
    rw [Threads.get_set here, sound.recorded j u' old]
    by_cases same : j = i
    · subst same
      simp [here, eq_comm]
    · simp [same]
  · simp only [Run.swap, List.map_cons, List.nodup_cons]
    refine ⟨?_, sound.once⟩
    intro before
    obtain ⟨⟨j, u', old⟩, member, rfl⟩ := List.mem_map.mp before
    rw [(sound.recorded j u' old).mp member] at here
    cases here

theorem Sound.step (sound : Sound update first s) (e : Event U) :
    Sound update first (s.step update e) := by
  cases e with
  | call u => exact sound.call u
  | advance i =>
    simp only [Run.step]
    split
    · rename_i u here
      refine sound.resume here (by simp) (by simp) fun u' seen loaded => ?_
      cases loaded
      exact ⟨Nat.le_refl _, fun _ => rfl⟩
    · rename_i u seen here
      split
      · rename_i current
        exact sound.swap here current
      · exact sound.resume here (by simp) (by simp) (by simp)
    · exact sound

theorem Sound.calls (sound : Sound update first s) {sw : Swap V U} (member : sw ∈ s.swaps) :
    s.calls[sw.thread]? = some sw.update := by
  have here := (sound.recorded sw.thread sw.update sw.old).mp member
  simp [Run.calls, here, Thread.asked]

theorem Sound.swap_unique (sound : Sound update first s) {sw sw' : Swap V U} (member : sw ∈ s.swaps)
    (member' : sw' ∈ s.swaps) (same : sw.thread = sw'.thread) : sw = sw' := by
  obtain ⟨i, u, old⟩ := sw
  obtain ⟨j, u', old'⟩ := sw'
  obtain rfl : i = j := same
  have here := (sound.recorded i u old).mp member
  rw [(sound.recorded i u' old').mp member'] at here
  cases here
  rfl

theorem swaps_subset (update : U → V → V) (s : Run V U) (e : Event U) :
    s.swaps ⊆ (s.step update e).swaps := by
  cases e with
  | call u => exact List.Subset.refl _
  | advance i =>
    simp only [Run.step]
    split
    · exact List.Subset.refl _
    · split
      · exact List.subset_cons_self _ _
      · exact List.Subset.refl _
    · exact List.Subset.refl _

theorem Sound.calls_perm (sound : Sound update first s)
    (all : ∀ i < s.threads.length, i ∈ s.swaps.map Swap.thread) :
    (s.swaps.map Swap.update).Perm s.calls := by
  have threads : (s.swaps.map Swap.thread).Perm (List.range s.threads.length) := by
    rw [List.perm_ext_iff_of_nodup sound.once List.nodup_range]
    intro i
    rw [List.mem_range]
    refine ⟨fun member => ?_, all i⟩
    obtain ⟨sw, inside, rfl⟩ := List.mem_map.mp member
    exact (List.getElem?_eq_some_iff.mp ((sound.recorded _ sw.update sw.old).mp inside)).1
  have looked := threads.map fun i => s.calls[i]?
  have swapped : (s.swaps.map Swap.thread).map (fun i => s.calls[i]?) =
      (s.swaps.map Swap.update).map some := by
    rw [List.map_map, List.map_map]
    exact List.map_congr_left fun sw member => sound.calls member
  have asked : (List.range s.threads.length).map (fun i => s.calls[i]?) = s.calls.map some := by
    apply List.ext_getElem
    · simp [Run.calls]
    · intro i _ small
      rw [List.length_map] at small
      rw [List.getElem_map, List.getElem_map, List.getElem_range, List.getElem?_eq_getElem small]
  rw [swapped, asked] at looked
  simpa [List.filterMap_map] using looked.filterMap id

/-! ## One field of the value -/

section Field

variable {α : Type} (get : V → α) (set? : U → Option α)

/-- The values given to a field, the last one first. -/
def given (swaps : List (Swap V U)) : List α := swaps.filterMap fun sw => set? sw.update

/-- The values of a field that were replaced by one given to it. -/
def replaced (swaps : List (Swap V U)) : List α :=
  swaps.filterMap fun sw => (set? sw.update).map fun _ => get sw.old

variable {get set?}

theorem Chain.field (law : ∀ u v, get (update u v) = (set? u).getD (get v)) :
    ∀ (swaps : List (Swap V U)) (v : V), Chain update first swaps v →
      get v :: replaced get set? swaps = given set? swaps ++ [get first] := by
  intro swaps
  induction swaps with
  | nil =>
    rintro v rfl
    rfl
  | cons sw rest ih =>
    rintro v ⟨rfl, before⟩
    have earlier := ih sw.old before
    have here := law sw.update sw.old
    simp only [replaced, given, List.filterMap_cons] at earlier ⊢
    cases value : set? sw.update with
    | none => simpa [value, here] using earlier
    | some a => simpa [value, here] using earlier

end Field

end CasLoop
