import Mathlib.Data.Int.Basic
import Mathlib.Data.Nat.ModEq

/-!
# A counter as an index

A signed counter of 64 bits that only grows is taken modulo the length of a slice
to find the next slot.  The remainder of a negative number is not positive, so that
a counter that has wrapped around soon asks for a slot that is not there.  As long
as it has not, the slots are taken in turn.
-/

set_option autoImplicit false

namespace Counter

/-- The slot `counter % len` of a slice of that length. -/
def slot? (counter : Int64) (len : Nat) : Option Nat :=
  if len = 0 ∨ counter.toInt.tmod len < 0 then none else some (counter.toInt.tmod len).toNat

theorem ofNat_succ (n : Nat) : Int64.ofNat (n + 1) = Int64.ofNat n + 1 := Int64.ofNat_add n 1

theorem slot?_of_lt {k len : Nat} (few : k < 2 ^ 63) (positive : 0 < len) :
    slot? (Int64.ofNat k) len = some (k % len) := by
  unfold slot?
  rw [Int64.toInt_ofNat_of_lt few, ← Int.ofNat_tmod, if_neg (by omega), Int.toNat_natCast]

theorem lt_of_slot? {counter : Int64} {len slot : Nat} (found : slot? counter len = some slot) :
    slot < len := by
  unfold slot? at found
  split at found
  · cases found
  · rename_i valid
    have below := Int.tmod_lt_of_pos counter.toInt (show (0 : Int) < len by omega)
    rw [← Option.some.inj found]
    omega

theorem dvd_of_slot? {counter : Int64} {len k : Nat} (negative : counter.toInt = -(k : Int))
    (found : (slot? counter len).isSome) : len ∣ k := by
  unfold slot? at found
  split at found
  · cases found
  · rename_i valid
    rw [negative, Int.neg_tmod, ← Int.ofNat_tmod] at valid
    exact Nat.dvd_of_mod_eq_zero (by omega)

/-- Only a slice of length one has a slot for each of the two numbers behind the
largest, so the first counts that all have one take the slots in turn. -/
theorem slot?_in_turn {n len : Nat} (valid : ∀ k < n, (slot? (Int64.ofNat k) len).isSome) :
    ∀ k < n, slot? (Int64.ofNat k) len = some (k % len) := by
  intro k inside
  have positive : 0 < len := by
    obtain ⟨slot, found⟩ := Option.isSome_iff_exists.mp (valid k inside)
    exact Nat.lt_of_le_of_lt (Nat.zero_le slot) (lt_of_slot? found)
  rcases Nat.lt_or_ge k (2 ^ 63) with few | many
  · exact slot?_of_lt few positive
  · have first : (Int64.ofNat (2 ^ 63)).toInt = -((2 ^ 63 : Nat) : Int) := by decide
    have divides : len ∣ 2 ^ 63 := dvd_of_slot? first (valid _ (Nat.lt_of_le_of_lt many inside))
    rcases Nat.eq_or_lt_of_le many with rfl | more
    · unfold slot?
      rw [first, Int.neg_tmod, ← Int.ofNat_tmod, Nat.mod_eq_zero_of_dvd divides,
        if_neg (by omega)]
      rfl
    · have second : (Int64.ofNat (2 ^ 63 + 1)).toInt = -((2 ^ 63 - 1 : Nat) : Int) := by decide
      have divides' : len ∣ 2 ^ 63 - 1 :=
        dvd_of_slot? second (valid _ (Nat.lt_of_le_of_lt more inside))
      have one : len = 1 := Nat.dvd_one.mp ((Nat.dvd_sub_iff_right (by decide) divides).mp divides')
      subst one
      have remainder : (Int64.ofNat k).toInt.tmod (1 : Nat) = 0 := Int.tmod_one _
      unfold slot?
      rw [remainder, if_neg (by omega), Nat.mod_one]
      rfl

end Counter
