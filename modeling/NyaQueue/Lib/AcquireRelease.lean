import Mathlib.Data.List.Basic
import Mathlib.Data.List.Count

/-!
# Acquiring and releasing

Traces of calls that acquire and release something for a key.  A trace is ordered
when nothing is released before it was acquired, and balanced when everything that
was acquired has been released as well.  Several callers may share one history.
-/

set_option autoImplicit false

inductive Use (κ : Type) where
  | acquire (key : κ)
  | release (key : κ)
  deriving DecidableEq

namespace Use

variable {κ : Type} [DecidableEq κ]

def key : Use κ → κ
  | .acquire key => key
  | .release key => key

def acquired (key : κ) (trace : List (Use κ)) : Nat := trace.count (.acquire key)

def released (key : κ) (trace : List (Use κ)) : Nat := trace.count (.release key)

def Ordered (trace : List (Use κ)) : Prop :=
  ∀ m key, released key (trace.take m) ≤ acquired key (trace.take m)

/-- Each acquisition is followed by a release of its own. -/
structure Balanced (trace : List (Use κ)) : Prop where
  ordered : Ordered trace
  even : ∀ key, acquired key trace = released key trace

theorem acquired_append (key : κ) (trace more : List (Use κ)) :
    acquired key (trace ++ more) = acquired key trace + acquired key more :=
  List.count_append

theorem released_append (key : κ) (trace more : List (Use κ)) :
    released key (trace ++ more) = released key trace + released key more :=
  List.count_append

theorem ordered_nil : Ordered ([] : List (Use κ)) := by
  intro m key
  rw [List.take_nil]
  exact Nat.zero_le _

theorem Ordered.released_le {trace : List (Use κ)} (ordered : Ordered trace) (key : κ) :
    released key trace ≤ acquired key trace := by
  have whole := ordered trace.length key
  rw [List.take_length] at whole
  exact whole

theorem Ordered.of_append {trace more : List (Use κ)} (ordered : Ordered (trace ++ more)) :
    Ordered trace := by
  intro m key
  have early := ordered (min m trace.length) key
  rw [List.take_append_of_le_length (Nat.min_le_right _ _), ← List.take_eq_take_min] at early
  exact early

theorem Ordered.append {trace more : List (Use κ)} (ordered : Ordered trace)
    (later : ∀ m key, released key trace + released key (more.take m) ≤
      acquired key trace + acquired key (more.take m)) : Ordered (trace ++ more) := by
  intro m key
  rcases Nat.le_total m trace.length with early | late
  · rw [List.take_append_of_le_length early]
    exact ordered m key
  · rw [List.take_append, List.take_of_length_le late, released_append, acquired_append]
    exact later _ key

theorem Ordered.flatMap {α : Type} {calls : α → List (Use κ)} (items : List α)
    (each : ∀ a ∈ items, Ordered (calls a)) : Ordered (items.flatMap calls) := by
  induction items with
  | nil => exact ordered_nil
  | cons a rest ih =>
    have here := each a List.mem_cons_self
    have later := ih fun other member => each other (List.mem_cons_of_mem _ member)
    rw [List.flatMap_cons]
    exact here.append fun m key => Nat.add_le_add (here.released_le key) (later m key)

theorem ordered_acquire (key : κ) : Ordered [.acquire key] := by
  intro m other
  cases m with
  | zero => exact Nat.zero_le _
  | succ m => simp [released]

theorem balanced_pair (key : κ) : Balanced [.acquire key, .release key] where
  ordered m other := by
    match m with
    | 0 => exact Nat.zero_le _
    | 1 => simp [released]
    | m + 2 => simp [released, acquired, List.count_cons]
  even other := by simp [released, acquired, List.count_cons]

/-! ## Several callers -/

section Callers

variable {ι : Type} [DecidableEq ι]

/-- What one caller has done. -/
def callsOf (caller : ι) (history : List (ι × Use κ)) : List (Use κ) :=
  (history.filter fun entry => entry.1 = caller).map Prod.snd

/-- The history without one caller. -/
def without (caller : ι) (history : List (ι × Use κ)) : List (ι × Use κ) :=
  history.filter fun entry => !decide (entry.1 = caller)

omit [DecidableEq κ] in
theorem callsOf_append (caller : ι) (history more : List (ι × Use κ)) :
    callsOf caller (history ++ more) = callsOf caller history ++ callsOf caller more := by
  rw [callsOf, List.filter_append, List.map_append, callsOf, callsOf]

omit [DecidableEq κ] in
theorem mem_of_mem_callsOf {caller : ι} {history : List (ι × Use κ)} {use : Use κ}
    (member : use ∈ callsOf caller history) : use ∈ history.map Prod.snd := by
  obtain ⟨entry, inside, rfl⟩ := List.mem_map.mp member
  exact List.mem_map_of_mem (List.mem_of_mem_filter inside)

omit [DecidableEq κ] in
theorem callsOf_without (caller out : ι) (history : List (ι × Use κ)) :
    callsOf caller (without out history) =
      if caller = out then [] else callsOf caller history := by
  unfold callsOf without
  rw [List.filter_filter]
  split_ifs with same
  · rw [List.map_eq_nil_iff, List.filter_eq_nil_iff]
    simp [same]
  · congr 1
    apply List.filter_congr
    intro entry _
    by_cases theirs : entry.1 = caller
    · simp [theirs, same]
    · simp [theirs]

theorem count_without (caller : ι) (history : List (ι × Use κ)) (use : Use κ) :
    (history.map Prod.snd).count use =
      (callsOf caller history).count use + ((without caller history).map Prod.snd).count use := by
  simp only [callsOf, without, List.count, List.countP_map]
  exact List.countP_eq_countP_filter_add ..

theorem even_of_callers (key : κ) : ∀ (n : Nat) (history : List (ι × Use κ)), history.length ≤ n →
    (∀ caller, acquired key (callsOf caller history) = released key (callsOf caller history)) →
    acquired key (history.map Prod.snd) = released key (history.map Prod.snd) := by
  -- the caller of the first entry is taken out of the history with all it has done
  intro n
  induction n with
  | zero =>
    intro history short _
    rw [List.eq_nil_of_length_eq_zero (Nat.le_zero.mp short)]
    rfl
  | succ n ih =>
    intro history short each
    cases history with
    | nil => rfl
    | cons first rest =>
      have shorter : (without first.1 (first :: rest)).length < (first :: rest).length := by
        refine List.length_filter_lt_length_iff_exists.mpr ⟨first, List.mem_cons_self, ?_⟩
        simp
      have others := ih (without first.1 (first :: rest)) (by omega) (by
        intro caller
        rw [callsOf_without]
        split_ifs
        · rfl
        · exact each caller)
      have mine := each first.1
      unfold acquired released at mine others ⊢
      rw [count_without first.1 _ (.acquire key), count_without first.1 _ (.release key), mine,
        others]

end Callers

end Use
