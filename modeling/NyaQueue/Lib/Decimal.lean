import Mathlib.Data.Nat.Digits.Lemmas

/-!
# Decimal fields in separated keys

The bytes of an integer in decimal notation, and keys that join fields with a
separator.  A field without the separator can be read off such a key.
-/

set_option autoImplicit false

namespace Decimal

def ofNat (n : Nat) : List UInt8 :=
  if n = 0 then [48] else (Nat.digits 10 n).reverse.map fun d => UInt8.ofNat (48 + d)

/-- `%d` -/
def ofInt (n : Int) : List UInt8 :=
  if n < 0 then 45 :: ofNat n.natAbs else ofNat n.natAbs

theorem digit_injective {a b : Nat} (small : a < 10) (small' : b < 10)
    (same : UInt8.ofNat (48 + a) = UInt8.ofNat (48 + b)) : a = b := by
  have value := congrArg UInt8.toNat same
  simp only [UInt8.toNat_ofNat'] at value
  omega

theorem mem_ofNat {n : Nat} {byte : UInt8} (member : byte ∈ ofNat n) :
    ∃ d < 10, byte = UInt8.ofNat (48 + d) := by
  unfold ofNat at member
  split at member
  · exact ⟨0, by decide, by simpa using member⟩
  · obtain ⟨d, there, rfl⟩ := List.mem_map.mp member
    exact ⟨d, Nat.digits_lt_base (by decide) (List.mem_reverse.mp there), rfl⟩

theorem digit_ne {d : Nat} (small : d < 10) {byte : UInt8} (below : byte.toNat < 48) :
    UInt8.ofNat (48 + d) ≠ byte := by
  intro same
  have value := congrArg UInt8.toNat same
  rw [UInt8.toNat_ofNat'] at value
  omega

theorem ofInt_no_slash (n : Int) : (47 : UInt8) ∉ ofInt n := by
  have digits : (47 : UInt8) ∉ ofNat n.natAbs := by
    intro member
    obtain ⟨d, small, same⟩ := mem_ofNat member
    exact digit_ne small (by decide) same.symm
  unfold ofInt
  split
  · simpa using digits
  · exact digits

theorem digits_eq_of_map_eq : ∀ {xs ys : List Nat}, (∀ d ∈ xs, d < 10) → (∀ d ∈ ys, d < 10) →
    xs.map (fun d => UInt8.ofNat (48 + d)) = ys.map (fun d => UInt8.ofNat (48 + d)) → xs = ys
  | [], [], _, _, _ => rfl
  | [], _ :: _, _, _, same => by simp at same
  | _ :: _, [], _, _, same => by simp at same
  | x :: xs, y :: ys, small, small', same => by
      obtain ⟨head, tail⟩ := List.cons.inj same
      have first := digit_injective (small x List.mem_cons_self) (small' y List.mem_cons_self) head
      have rest := digits_eq_of_map_eq (fun d member => small d (List.mem_cons_of_mem _ member))
        (fun d member => small' d (List.mem_cons_of_mem _ member)) tail
      rw [first, rest]

/-- The digits behind the notation; zero is written with one digit. -/
def written (n : Nat) : List Nat := if n = 0 then [0] else (Nat.digits 10 n).reverse

theorem ofNat_eq_written (n : Nat) : ofNat n = (written n).map fun d => UInt8.ofNat (48 + d) := by
  unfold ofNat written
  split <;> rfl

theorem ofDigits_written (n : Nat) : Nat.ofDigits 10 (written n).reverse = n := by
  unfold written
  split
  · rename_i zero
    simp [zero]
  · rw [List.reverse_reverse, Nat.ofDigits_digits]

theorem written_small (n : Nat) : ∀ d ∈ written n, d < 10 := by
  intro d member
  unfold written at member
  split at member
  · rw [List.mem_singleton.mp member]
    decide
  · exact Nat.digits_lt_base (by decide) (List.mem_reverse.mp member)

theorem ofNat_injective {n m : Nat} (same : ofNat n = ofNat m) : n = m := by
  rw [ofNat_eq_written, ofNat_eq_written] at same
  have digits := digits_eq_of_map_eq (written_small n) (written_small m) same
  rw [← ofDigits_written n, digits, ofDigits_written]

theorem ofNat_ne_minus (n : Nat) (rest : List UInt8) : ofNat n ≠ 45 :: rest := by
  intro same
  obtain ⟨d, small, minus⟩ := mem_ofNat (same ▸ List.mem_cons_self : (45 : UInt8) ∈ ofNat n)
  exact digit_ne small (by decide) minus.symm

theorem ofInt_injective {n m : Int} (same : ofInt n = ofInt m) : n = m := by
  unfold ofInt at same
  split at same <;> split at same
  · have magnitude := ofNat_injective (List.cons.inj same).2
    omega
  · exact absurd same.symm (ofNat_ne_minus _ _)
  · exact absurd same (ofNat_ne_minus _ _)
  · have magnitude := ofNat_injective same
    omega

theorem separated_injective {α : Type} {mark : α} : ∀ {field field' rest rest' : List α},
    mark ∉ field → mark ∉ field' → field ++ mark :: rest = field' ++ mark :: rest' →
      field = field' ∧ rest = rest'
  | [], [], _, _, _, _, same => ⟨rfl, (List.cons.inj same).2⟩
  | [], _ :: _, _, _, _, clean, same => by
      exact absurd ((List.cons.inj same).1 ▸ List.mem_cons_self) clean
  | _ :: _, [], _, _, clean, _, same => by
      exact absurd ((List.cons.inj same).1 ▸ List.mem_cons_self) clean
  | x :: field, y :: field', rest, rest', clean, clean', same => by
      obtain ⟨head, tail⟩ := List.cons.inj same
      obtain ⟨fields, rests⟩ := separated_injective
        (fun member => clean (List.mem_cons_of_mem _ member))
        (fun member => clean' (List.mem_cons_of_mem _ member)) tail
      exact ⟨by rw [head, fields], rests⟩

end Decimal
