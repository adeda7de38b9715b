import NyaQueue.Lib.BoundedQueue
import Mathlib.Data.List.MinMax
import Mathlib.Order.Basic

/-!
# Queues that serve the highest key first

The pending items are one list in the order of their insertion.  A pop takes
the first item whose key is the highest one; a push may have to make room among
the items of its own key.  `bucket` is the view of an implementation that keeps
one queue for each key, and popping until nothing is left is a stable sort.
-/

set_option autoImplicit false

namespace StableQueue

variable {κ α : Type} [LinearOrder κ]

/-- The values of one key, oldest first. -/
def bucket (queue : List (κ × α)) (k : κ) : List α :=
  (queue.filter fun item => item.1 = k).map Prod.snd

def highest (queue : List (κ × α)) : Option κ := (queue.map Prod.fst).max?

/-- The first-inserted item of the highest key, and the queue without it. -/
def pop (queue : List (κ × α)) : List (κ × α) × Option (κ × α) :=
  match highest queue with
  | none => (queue, none)
  | some k => (queue.eraseP fun item => item.1 = k, queue.find? fun item => item.1 = k)

/-- A push on a key that is full drops the oldest item of that key. -/
def push (capacity : Nat) (queue : List (κ × α)) (item : κ × α) : List (κ × α) :=
  if BoundedQueue.Full capacity (bucket queue item.1) then
    (queue.eraseP fun other => other.1 = item.1) ++ [item]
  else queue ++ [item]

/-! ## The view by key -/

theorem bucket_cons_self (k : κ) (a : α) (rest : List (κ × α)) :
    bucket ((k, a) :: rest) k = a :: bucket rest k := by
  simp [bucket]

variable {k : κ} {queue : List (κ × α)} {a : α} {rest : List α}

theorem bucket_cons_ne {j : κ} (different : j ≠ k) (a : α) (rest : List (κ × α)) :
    bucket ((j, a) :: rest) k = bucket rest k := by
  simp [bucket, different]

theorem bucket_append (queue later : List (κ × α)) (k : κ) :
    bucket (queue ++ later) k = bucket queue k ++ bucket later k := by
  simp [bucket]

theorem bucket_concat (queue : List (κ × α)) (item : κ × α) :
    bucket (queue ++ [item]) =
      Function.update (bucket queue) item.1 (bucket queue item.1 ++ [item.2]) := by
  obtain ⟨j, a⟩ := item
  funext k
  rw [bucket_append]
  by_cases same : k = j
  · subst same
    rw [Function.update_self, bucket_cons_self]
    rfl
  · rw [Function.update_of_ne same, bucket_cons_ne (Ne.symm same)]
    exact List.append_nil _

theorem bucket_eraseP (queue : List (κ × α)) (k : κ) :
    bucket (queue.eraseP fun item => item.1 = k) =
      Function.update (bucket queue) k (bucket queue k).tail := by
  induction queue with
  | nil =>
    funext j
    by_cases same : j = k
    · subst same
      rw [Function.update_self]
      rfl
    · rw [Function.update_of_ne same]
      rfl
  | cons item rest ih =>
    obtain ⟨i, a⟩ := item
    by_cases here : i = k
    · -- the item that goes: only its own key is shorter
      subst here
      rw [List.eraseP_cons_of_pos (by simp), bucket_cons_self]
      funext j
      by_cases same : j = i
      · subst same
        rw [Function.update_self, List.tail_cons]
      · rw [Function.update_of_ne same, bucket_cons_ne (Ne.symm same)]
    · rw [List.eraseP_cons_of_neg (by simpa using here), bucket_cons_ne here]
      funext j
      by_cases at_k : j = k
      · subst at_k
        rw [Function.update_self, bucket_cons_ne here, ih, Function.update_self]
      · rw [Function.update_of_ne at_k]
        by_cases at_i : j = i
        · subst at_i
          rw [bucket_cons_self, bucket_cons_self, ih, Function.update_of_ne at_k]
        · rw [bucket_cons_ne (Ne.symm at_i), bucket_cons_ne (Ne.symm at_i), ih,
            Function.update_of_ne at_k]

theorem bucket_push (capacity : Nat) (queue : List (κ × α)) (item : κ × α) :
    bucket (push capacity queue item) = Function.update (bucket queue) item.1
      (BoundedQueue.push capacity (bucket queue item.1) item.2).1 := by
  unfold push
  by_cases full : BoundedQueue.Full capacity (bucket queue item.1)
  · rw [if_pos full, BoundedQueue.push_of_full full, bucket_concat, bucket_eraseP,
      Function.update_self, Function.update_idem]
  · rw [if_neg full, BoundedQueue.push_of_room full, bucket_concat]

theorem mem_bucket_iff :
    a ∈ bucket queue k ↔ (k, a) ∈ queue := by
  simp [bucket]

theorem bucket_eq_nil_iff :
    bucket queue k = [] ↔ ∀ item ∈ queue, item.1 ≠ k := by
  simp [bucket]

theorem find?_eq_head? (queue : List (κ × α)) (k : κ) :
    queue.find? (fun item => item.1 = k) = (bucket queue k).head?.map fun a => (k, a) := by
  induction queue with
  | nil => rfl
  | cons item rest ih =>
    obtain ⟨j, a⟩ := item
    by_cases here : j = k
    · subst here
      rw [List.find?_cons_of_pos (by simp), bucket_cons_self]
      rfl
    · rw [List.find?_cons_of_neg (by simpa using here), bucket_cons_ne here, ih]

/-! ## What a pop takes -/

theorem highest_of_bucket (queued : bucket queue k ≠ []) (above : ∀ j, k < j → bucket queue j = []) :
    highest queue = some k := by
  unfold highest
  rw [List.max?_eq_some_iff]
  constructor
  · obtain ⟨a, member⟩ := List.exists_mem_of_ne_nil _ queued
    exact List.mem_map.mpr ⟨(k, a), mem_bucket_iff.mp member, rfl⟩
  · intro j member
    obtain ⟨item, inside, rfl⟩ := List.mem_map.mp member
    by_contra larger
    exact bucket_eq_nil_iff.mp (above item.1 (lt_of_not_ge larger)) item inside rfl

theorem pop_of_bucket (queued : bucket queue k = a :: rest)
    (above : ∀ j, k < j → bucket queue j = []) :
    pop queue = (queue.eraseP fun item => item.1 = k, some (k, a)) := by
  have top : highest queue = some k :=
    highest_of_bucket (by rw [queued]; exact List.cons_ne_nil a rest) above
  simp only [pop, top]
  rw [find?_eq_head?, queued]
  rfl

theorem empty_or_highest (queue : List (κ × α)) :
    queue = [] ∨ ∃ k a rest, bucket queue k = a :: rest ∧ ∀ j, k < j → bucket queue j = [] := by
  cases top : highest queue with
  | none =>
    refine .inl ?_
    unfold highest at top
    exact List.map_eq_nil_iff.mp (List.max?_eq_none_iff.mp top)
  | some k =>
    obtain ⟨member, largest⟩ := List.max?_eq_some_iff.mp top
    obtain ⟨⟨j, a⟩, inside, rfl⟩ := List.mem_map.mp member
    obtain ⟨front, rest, queued⟩ :=
      List.exists_cons_of_ne_nil (List.ne_nil_of_mem (mem_bucket_iff.mpr inside))
    refine .inr ⟨j, front, rest, queued, ?_⟩
    intro i larger
    rw [bucket_eq_nil_iff]
    rintro item found rfl
    exact absurd (largest item.1 (List.mem_map_of_mem found)) (not_le_of_gt larger)

/-! ## Popping until nothing is left -/

/-- What repeated pops return up to the first one that finds nothing; `none`
when the fuel does not reach that far. -/
def drain {σ β : Type} (pop : σ → σ × Option β) : Nat → σ → Option (List β)
  | 0, _ => none
  | fuel + 1, s =>
      match (pop s).2 with
      | none => some []
      | some b => (drain pop fuel (pop s).1).map (b :: ·)

theorem drain_of_none {σ β : Type} {pop : σ → σ × Option β} {s : σ} (nothing : (pop s).2 = none)
    (fuel : Nat) : drain pop (fuel + 1) s = some [] := by
  simp only [drain, nothing]

theorem drain_of_some {σ β : Type} {pop : σ → σ × Option β} {s : σ} {b : β}
    (popped : (pop s).2 = some b) (fuel : Nat) :
    drain pop (fuel + 1) s = (drain pop fuel (pop s).1).map (b :: ·) := by
  simp only [drain, popped]

theorem drain_simulates {σ τ β γ : Type} {pop : σ → σ × Option β} {other : τ → τ × Option γ}
    (view : γ → β) (related : σ → τ → Prop)
    (agree : ∀ s t, related s t →
      (pop s).2 = (other t).2.map view ∧ related (pop s).1 (other t).1) (fuel : Nat) :
    ∀ s t, related s t → drain pop fuel s = (drain other fuel t).map (List.map view) := by
  induction fuel with
  | zero => intro s t _; rfl
  | succ fuel ih =>
    intro s t holds
    obtain ⟨same, next⟩ := agree s t holds
    cases popped : (other t).2 with
    | none =>
      rw [drain_of_none popped, drain_of_none (same.trans (congrArg _ popped))]
      rfl
    | some c =>
      rw [drain_of_some popped, drain_of_some (same.trans (congrArg _ popped)), ih _ _ next,
        Option.map_map, Option.map_map]
      rfl

/-- `sorted` holds the items of `queue` with descending keys, and the items of
each key in the order they have in `queue`. -/
structure StablySorted (queue sorted : List (κ × α)) : Prop where
  exactly : sorted.Perm queue
  descending : sorted.Pairwise fun first second => second.1 ≤ first.1
  stable : ∀ k, bucket sorted k = bucket queue k

theorem perm_cons_eraseP (queued : bucket queue k = a :: rest) :
    ((k, a) :: queue.eraseP fun item => item.1 = k).Perm queue := by
  have found : queue.find? (fun item => item.1 = k) = some (k, a) := by
    rw [find?_eq_head?, queued]
    rfl
  obtain ⟨-, before, after, split, none_before⟩ := List.find?_eq_some_iff_append.mp found
  rw [split, List.eraseP_append_right _ (by simpa using none_before),
    List.eraseP_cons_of_pos (by simp)]
  exact List.perm_middle.symm

theorem StablySorted.cons {sorted : List (κ × α)} (queued : bucket queue k = a :: rest)
    (above : ∀ j, k < j → bucket queue j = [])
    (tail : StablySorted (queue.eraseP fun item => item.1 = k) sorted) :
    StablySorted queue ((k, a) :: sorted) where
  exactly := (tail.exactly.cons (k, a)).trans (perm_cons_eraseP queued)
  descending := by
    refine List.pairwise_cons.mpr ⟨?_, tail.descending⟩
    intro item member
    by_contra larger
    have inside := List.mem_of_mem_eraseP (tail.exactly.mem_iff.mp member)
    exact bucket_eq_nil_iff.mp (above item.1 (lt_of_not_ge larger)) item inside rfl
  stable := by
    intro j
    by_cases same : j = k
    · subst same
      rw [bucket_cons_self, tail.stable, bucket_eraseP, Function.update_self, queued]
      rfl
    · rw [bucket_cons_ne (Ne.symm same), tail.stable, bucket_eraseP, Function.update_of_ne same]

theorem drain_pop_sorts (fuel : Nat) : ∀ queue : List (κ × α), queue.length < fuel →
    ∃ sorted, StablySorted queue sorted ∧ drain pop fuel queue = some sorted := by
  induction fuel with
  | zero => intro queue short; omega
  | succ fuel ih =>
    intro queue short
    rcases empty_or_highest queue with rfl | ⟨k, a, rest, queued, above⟩
    · exact ⟨[], ⟨List.Perm.refl [], List.Pairwise.nil, fun _ => rfl⟩, rfl⟩
    · have popped := pop_of_bucket queued above
      have shorter : (queue.eraseP fun item => item.1 = k).length + 1 = queue.length :=
        (perm_cons_eraseP queued).length_eq
      obtain ⟨sorted, tail, drained⟩ := ih (queue.eraseP fun item => item.1 = k) (by omega)
      refine ⟨(k, a) :: sorted, tail.cons queued above, ?_⟩
      rw [drain_of_some (congrArg Prod.snd popped), popped, drained]
      rfl

end StableQueue
