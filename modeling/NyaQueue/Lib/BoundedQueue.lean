import Mathlib.Data.List.DropRight

/-!
# Bounded first-in first-out queues

A queue is a list, oldest element first.  Capacity zero means unbounded; a
push on a full queue drops the oldest element and reports it.
-/

set_option autoImplicit false

namespace BoundedQueue

variable {α : Type}

def Full (capacity : Nat) (queue : List α) : Prop :=
  0 < capacity ∧ capacity ≤ queue.length

instance fullDecidable (capacity : Nat) (queue : List α) : Decidable (Full capacity queue) :=
  inferInstanceAs (Decidable (0 < capacity ∧ capacity ≤ queue.length))

def push (capacity : Nat) (queue : List α) (item : α) : List α × Option α :=
  if Full capacity queue then (queue.tail ++ [item], queue.head?)
  else (queue ++ [item], none)

variable {capacity : Nat} {queue : List α}

theorem push_of_full (full : Full capacity queue) (item : α) :
    push capacity queue item = (queue.tail ++ [item], queue.head?) :=
  if_pos full

theorem push_of_room (room : ¬ Full capacity queue) (item : α) :
    push capacity queue item = (queue ++ [item], none) :=
  if_neg room

theorem full_cons (full : Full capacity queue) :
    ∃ oldest rest, queue = oldest :: rest := by
  cases queue with
  | nil =>
    obtain ⟨positive, reached⟩ := full
    simp only [List.length_nil] at reached
    omega
  | cons oldest rest => exact ⟨oldest, rest, rfl⟩

/-- Nothing is lost by a push: what was queued together with the new item is
what is queued afterwards together with the dropped element. -/
theorem push_conserves (capacity : Nat) (queue : List α) (item : α) :
    ((push capacity queue item).1 ++ (push capacity queue item).2.toList).Perm
      (queue ++ [item]) := by
  by_cases full : Full capacity queue
  · obtain ⟨oldest, rest, rfl⟩ := full_cons full
    rw [push_of_full full]
    exact List.perm_append_comm
  · rw [push_of_room full]
    simp

theorem push_sublist (capacity : Nat) (queue : List α) (item : α) :
    (push capacity queue item).1.Sublist (queue ++ [item]) := by
  by_cases full : Full capacity queue
  · rw [push_of_full full]
    exact (List.tail_sublist queue).append_right [item]
  · rw [push_of_room full]

/-- The newest entries, as many as the capacity allows. -/
def newest (capacity : Nat) (queue : List α) : List α :=
  if capacity = 0 then queue else queue.rtake capacity

def Fits (capacity : Nat) (queue : List α) : Prop := 0 < capacity → queue.length ≤ capacity

theorem newest_of_fits (fits : Fits capacity queue) :
    newest capacity queue = queue := by
  unfold newest
  split
  · rfl
  · have := fits (by omega)
    rw [List.rtake, Nat.sub_eq_zero_of_le this, List.drop_zero]

theorem newest_append (capacity : Nat) (queue later : List α) :
    newest capacity (newest capacity queue ++ later) = newest capacity (queue ++ later) := by
  unfold newest
  split
  · rfl
  · simp only [List.rtake]
    rw [← List.drop_append_of_le_length (Nat.sub_le queue.length capacity), List.drop_drop]
    congr 1
    simp only [List.length_drop, List.length_append]
    omega

theorem push_of_fits (fits : Fits capacity queue) (item : α) :
    (push capacity queue item).1 = newest capacity (queue ++ [item]) := by
  by_cases full : Full capacity queue
  · obtain ⟨oldest, rest, rfl⟩ := full_cons full
    have exactly : rest.length + 1 = capacity := Nat.le_antisymm (fits full.1) full.2
    rw [push_of_full full, newest, if_neg (Nat.pos_iff_ne_zero.mp full.1), List.rtake, ← exactly]
    simp
  · rw [push_of_room full, newest_of_fits]
    intro positive
    have room : queue.length < capacity := by
      by_contra reached
      exact full ⟨positive, Nat.le_of_not_lt reached⟩
    rw [List.length_append, List.length_singleton]
    omega

end BoundedQueue
