import NyaQueue.Lib.BigEndian

/-!
# Slice expressions that can go out of range

A slice or index expression, or a remainder, answers `none` where the language
would stop the program.  The lemmas give the value under the bounds that have to
be checked first.
-/

set_option autoImplicit false

namespace Checked

open BigEndian

variable {α : Type}

/-- `xs[lo:hi]` -/
def slice? (xs : List α) (lo hi : Nat) : Option (List α) :=
  if lo ≤ hi ∧ hi ≤ xs.length then some ((xs.drop lo).take (hi - lo)) else none

/-- `xs[lo:]` -/
def suffix? (xs : List α) (lo : Nat) : Option (List α) :=
  if lo ≤ xs.length then some (xs.drop lo) else none

/-- `xs[i] = x` -/
def store? (xs : List α) (i : Nat) (x : α) : Option (List α) :=
  if i < xs.length then some (xs.set i x) else none

/-- `a % b` -/
def mod? (a b : Nat) : Option Nat := if b = 0 then none else some (a % b)

/-- Reads four bytes from the front. -/
def uint32? (bytes : List UInt8) : Option UInt32 :=
  if 4 ≤ bytes.length then some (uint32 bytes) else none

/-- Reads eight bytes from the front. -/
def uint64? (bytes : List UInt8) : Option UInt64 :=
  if 8 ≤ bytes.length then some (uint64 bytes) else none

variable {xs : List α} {bytes : List UInt8} {off : Nat}

theorem slice?_of_le {lo hi : Nat} (order : lo ≤ hi) (inside : hi ≤ xs.length) :
    slice? xs lo hi = some ((xs.drop lo).take (hi - lo)) :=
  if_pos ⟨order, inside⟩

theorem suffix?_of_le {lo : Nat} (inside : lo ≤ xs.length) :
    suffix? xs lo = some (xs.drop lo) :=
  if_pos inside

theorem store?_of_lt {i : Nat} (inside : i < xs.length) (x : α) :
    store? xs i x = some (xs.set i x) :=
  if_pos inside

theorem mod?_of_pos (a : Nat) {b : Nat} (positive : 0 < b) : mod? a b = some (a % b) :=
  if_neg (Nat.pos_iff_ne_zero.mp positive)

theorem store?_loop (value : α) (rest : List α) : ∀ front : List α,
    (List.range' front.length rest.length).foldlM (fun xs i => store? xs i value) (front ++ rest) =
      some (front ++ List.replicate rest.length value) := by
  induction rest with
  | nil => intro front; simp
  | cons x rest ih =>
    intro front
    have inside : front.length < (front ++ x :: rest).length := by simp
    have stored : (front ++ x :: rest).set front.length value = (front ++ [value]) ++ rest := by
      simp
    have next := ih (front ++ [value])
    rw [List.length_append, List.length_singleton] at next
    rw [List.length_cons, List.range'_succ, List.foldlM_cons, store?_of_lt inside, stored]
    refine next.trans ?_
    rw [List.append_assoc, List.replicate_succ, List.singleton_append]

theorem uint32_take (bytes : List UInt8) : uint32 (bytes.take 4) = uint32 bytes := by
  unfold uint32
  rw [List.take_take, Nat.min_self]

theorem uint64_take (bytes : List UInt8) : uint64 (bytes.take 8) = uint64 bytes := by
  unfold uint64
  rw [List.take_take, Nat.min_self]

theorem uint32?_suffix (inside : off + 4 ≤ bytes.length) :
    (suffix? bytes off).bind uint32? = some (uint32 (bytes.drop off)) := by
  have room : 4 ≤ (bytes.drop off).length := by
    rw [List.length_drop]
    omega
  rw [suffix?_of_le (by omega)]
  exact if_pos room

theorem uint64?_suffix (inside : off + 8 ≤ bytes.length) :
    (suffix? bytes off).bind uint64? = some (uint64 (bytes.drop off)) := by
  have room : 8 ≤ (bytes.drop off).length := by
    rw [List.length_drop]
    omega
  rw [suffix?_of_le (by omega)]
  exact if_pos room

theorem uint32?_slice (inside : off + 4 ≤ bytes.length) :
    (slice? bytes off (off + 4)).bind uint32? = some (uint32 (bytes.drop off)) := by
  have room : 4 ≤ ((bytes.drop off).take 4).length := by
    rw [List.length_take, List.length_drop]
    omega
  rw [slice?_of_le (Nat.le_add_right off 4) inside, Nat.add_sub_cancel_left, ← uint32_take]
  exact if_pos room

theorem uint64?_slice (inside : off + 8 ≤ bytes.length) :
    (slice? bytes off (off + 8)).bind uint64? = some (uint64 (bytes.drop off)) := by
  have room : 8 ≤ ((bytes.drop off).take 8).length := by
    rw [List.length_take, List.length_drop]
    omega
  rw [slice?_of_le (Nat.le_add_right off 8) inside, Nat.add_sub_cancel_left, ← uint64_take]
  exact if_pos room

end Checked
