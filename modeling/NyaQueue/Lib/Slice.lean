import Mathlib.Data.List.Basic

/-!
# Writing into a slice

`overwrite buf off src` is the effect of copying `src` over `buf` from
position `off` on: the copy stops at the end of `buf`, and everything outside
the written window is kept.  A buffer that is filled by consecutive writes is
described by `overwrite_written`: what is already written stays in front, what
is still stale stays behind.
-/

set_option autoImplicit false

namespace Slice

variable {α : Type}

def overwrite (buf : List α) (off : Nat) (src : List α) : List α :=
  buf.take off ++ src.take (buf.length - off) ++ buf.drop (off + src.length)

theorem overwrite_written (written stale src : List α) (off : Nat)
    (position : off = written.length) (room : src.length ≤ stale.length) :
    overwrite (written ++ stale) off src =
      written ++ src ++ stale.drop src.length := by
  subst position
  have whole : src.take ((written ++ stale).length - written.length) = src := by
    apply List.take_of_length_le
    simp only [List.length_append]
    omega
  have tail : (written ++ stale).drop (written.length + src.length) =
      stale.drop src.length := by
    rw [← List.drop_drop, List.drop_left]
  rw [overwrite, whole, tail, List.take_left]

theorem overwrite_front {buf src : List α} (room : src.length ≤ buf.length) :
    overwrite buf 0 src = src ++ buf.drop src.length := by
  have copied := overwrite_written [] buf src 0 rfl room
  rwa [List.nil_append, List.nil_append] at copied

theorem overwrite_all {buf src : List α} (same : src.length = buf.length) :
    overwrite buf 0 src = src := by
  rw [overwrite_front (Nat.le_of_eq same), List.drop_of_length_le (Nat.le_of_eq same.symm),
    List.append_nil]

theorem length_overwrite {buf : List α} {off : Nat} (inside : off ≤ buf.length) (src : List α) :
    (overwrite buf off src).length = buf.length := by
  simp only [overwrite, List.length_append, List.length_take, List.length_drop]
  omega

theorem getElem?_overwrite_before {buf : List α} {off : Nat} (inside : off ≤ buf.length)
    (src : List α) {i : Nat} (before : i < off) : (overwrite buf off src)[i]? = buf[i]? := by
  have front : (buf.take off).length = off := List.length_take_of_le inside
  rw [overwrite, List.append_assoc, List.getElem?_append_left (by omega),
    List.getElem?_take_of_lt before]

theorem getElem?_overwrite_from {buf : List α} {off : Nat} (src : List α) {i : Nat}
    (later : off ≤ i) {x : α} (stood : buf[i]? = some x) :
    (overwrite buf off src)[i]? = some (src[i - off]?.getD x) := by
  obtain ⟨valid, -⟩ := List.getElem?_eq_some_iff.mp stood
  have front : (buf.take off).length = off := List.length_take_of_le (by omega)
  unfold overwrite
  by_cases window : i - off < src.length
  · have written : i - off < (src.take (buf.length - off)).length := by
      rw [List.length_take]
      omega
    rw [List.append_assoc, List.getElem?_append_right (by omega), front,
      List.getElem?_append_left written, List.getElem?_take_of_lt (by omega),
      List.getElem?_eq_getElem window]
    rfl
  · have whole : src.take (buf.length - off) = src := List.take_of_length_le (by omega)
    have behind : off + src.length + (i - (off + src.length)) = i := by omega
    rw [whole, List.getElem?_append_right (by rw [List.length_append, front]; omega),
      List.length_append, front, List.getElem?_drop, behind, stood,
      List.getElem?_eq_none (by omega)]
    rfl

end Slice
