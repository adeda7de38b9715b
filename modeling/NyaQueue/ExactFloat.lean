import NyaQueue.Balancer
import Mathlib.Algebra.Order.Floor.Ring
import Mathlib.Data.Rat.Floor
import Mathlib.Tactic.Linarith

/-!
# Exact arithmetic in the place of `float64`

`ExactArith` says that the operations of `FloatConv` are those of an ordered
field and that rounding is to the nearest integer, halves away from zero.
`exactFloat` provides them for every such field, the rational and the real
numbers among them.
-/

set_option autoImplicit false

namespace NyaQueue

section
variable (F : Type) [Field F] [LinearOrder F] [FloorRing F]

/-- `math.Round` -/
def roundHalfAway {F : Type} [Field F] [LinearOrder F] [FloorRing F] (x : F) : Int :=
  if 0 ≤ x then ⌊x + 1 / 2⌋ else -⌊-x + 1 / 2⌋

@[reducible] def exactFloat : FloatConv F where
  lt a b := decide (a < b)
  eq a b := decide (a = b)
  add a b := a + b
  sub a b := a - b
  mul a b := a * b
  div a b := a / b
  ofInt n := n
  literal q := q
  maxFloat := (2 ^ 53 - 1) * 2 ^ 971
  abs a := max a (-a)
  round := roundHalfAway
  toInt64 a := Int64.ofInt (if 0 ≤ a then ⌊a⌋ else ⌈a⌉)

/-- The float operations are those of the field. -/
class ExactArith [FloatConv F] : Prop where
  lt_iff (a b : F) : FloatArith.lt a b = true ↔ a < b
  add_eq (a b : F) : FloatArith.add a b = a + b
  sub_eq (a b : F) : FloatArith.sub a b = a - b
  mul_eq (a b : F) : FloatArith.mul a b = a * b
  div_eq (a b : F) : FloatArith.div a b = a / b
  literal_eq (q : Rat) : (FloatArith.literal q : F) = q
  round_eq (a : F) : FloatConv.round a = roundHalfAway a

theorem exactFloat_exact : @ExactArith F _ _ _ (exactFloat F) :=
  letI := exactFloat F
  { lt_iff := fun _ _ => decide_eq_true_iff
    add_eq := fun _ _ => rfl
    sub_eq := fun _ _ => rfl
    mul_eq := fun _ _ => rfl
    div_eq := fun _ _ => rfl
    literal_eq := fun _ => rfl
    round_eq := fun _ => rfl }

end

instance ratFloatConv : FloatConv Rat := exactFloat Rat

instance ratExactArith : ExactArith Rat := exactFloat_exact Rat

theorem roundHalfAway_mem {F : Type} [Field F] [LinearOrder F] [IsStrictOrderedRing F]
    [FloorRing F] {lo hi : Int} {x : F} (above : (lo : F) ≤ x) (below : x ≤ hi) :
    lo ≤ roundHalfAway x ∧ roundHalfAway x ≤ hi := by
  unfold roundHalfAway
  split
  · constructor
    · apply Int.le_floor.mpr
      linarith
    · apply Int.lt_add_one_iff.mp
      apply Int.floor_lt.mpr
      push_cast
      linarith
  · constructor
    · apply Int.le_neg_of_le_neg
      apply Int.lt_add_one_iff.mp
      apply Int.floor_lt.mpr
      push_cast
      linarith
    · apply Int.neg_le_of_neg_le
      apply Int.le_floor.mpr
      push_cast
      linarith

end NyaQueue
