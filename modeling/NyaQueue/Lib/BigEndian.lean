import Mathlib.Algebra.Order.Group.Nat
import Mathlib.Tactic.Ring

/-!
# Fixed-width big-endian integers

`encode width n` writes the low `8 * width` bits of `n`, most significant byte
first, and `decode` reads a byte string back.  The word codecs below are the
32- and 64-bit cases that length-prefixed binary formats use.
-/

set_option autoImplicit false

namespace BigEndian

/-- The `width` big-endian bytes of `n`; bits above `8 * width` are dropped. -/
def encode : Nat → Nat → List UInt8
  | 0, _ => []
  | width + 1, n => UInt8.ofNat (n / 256 ^ width) :: encode width n

def decode (bytes : List UInt8) : Nat :=
  bytes.foldl (fun acc byte => acc * 256 + byte.toNat) 0

@[simp] theorem encode_length (width n : Nat) : (encode width n).length = width := by
  induction width with
  | zero => rfl
  | succ width ih => simp [encode, ih]

theorem foldl_shift (bytes : List UInt8) : ∀ start : Nat,
    bytes.foldl (fun acc byte => acc * 256 + byte.toNat) start =
      start * 256 ^ bytes.length + decode bytes := by
  induction bytes with
  | nil => intro start; simp [decode]
  | cons byte rest ih =>
    intro start
    simp only [List.foldl_cons, List.length_cons, decode]
    rw [ih, ih (0 * 256 + byte.toNat)]
    ring

theorem decode_cons (byte : UInt8) (rest : List UInt8) :
    decode (byte :: rest) = byte.toNat * 256 ^ rest.length + decode rest := by
  rw [decode, List.foldl_cons, foldl_shift]
  simp

theorem decode_encode (width n : Nat) : decode (encode width n) = n % 256 ^ width := by
  induction width with
  | zero => simp [encode, decode, Nat.mod_one]
  | succ width ih =>
    have topByte : (UInt8.ofNat (n / 256 ^ width)).toNat = n / 256 ^ width % 256 := by simp
    rw [encode, decode_cons, ih, encode_length, topByte, pow_succ, Nat.mod_mul]
    ring

theorem decode_encode_of_lt {width n : Nat} (fits : n < 256 ^ width) :
    decode (encode width n) = n := by
  rw [decode_encode, Nat.mod_eq_of_lt fits]

theorem decode_lt (bytes : List UInt8) : decode bytes < 256 ^ bytes.length := by
  induction bytes with
  | nil => simp [decode]
  | cons byte rest ih =>
    have digit : byte.toNat ≤ 255 := Nat.le_of_lt_succ byte.toNat_lt
    have top : byte.toNat * 256 ^ rest.length ≤ 255 * 256 ^ rest.length :=
      Nat.mul_le_mul_right _ digit
    rw [decode_cons, List.length_cons, pow_succ]
    omega

theorem encode_add_mul (width n high : Nat) :
    encode width (high * 256 ^ width + n) = encode width n := by
  induction width generalizing high with
  | zero => rfl
  | succ width ih =>
    have shifted : high * 256 ^ (width + 1) + n = high * 256 * 256 ^ width + n := by ring
    have positive : 0 < 256 ^ width := Nat.pow_pos (by decide)
    have top : UInt8.ofNat ((high * 256 * 256 ^ width + n) / 256 ^ width) =
        UInt8.ofNat (n / 256 ^ width) := by
      rw [Nat.add_comm, Nat.add_mul_div_right _ _ positive]
      apply UInt8.toNat_inj.mp
      simp
    rw [encode, encode, shifted, ih, top]

theorem encode_decode (bytes : List UInt8) : encode bytes.length (decode bytes) = bytes := by
  induction bytes with
  | nil => rfl
  | cons byte rest ih =>
    have small := decode_lt rest
    have positive : 0 < 256 ^ rest.length := Nat.pow_pos (by decide)
    have top : (byte.toNat * 256 ^ rest.length + decode rest) / 256 ^ rest.length =
        byte.toNat := by
      rw [Nat.add_comm, Nat.add_mul_div_right _ _ positive, Nat.div_eq_of_lt small, Nat.zero_add]
    rw [List.length_cons, encode, decode_cons, top, encode_add_mul, ih, UInt8.ofNat_toNat]

/-! ## Words -/

def putUint32 (value : UInt32) : List UInt8 := encode 4 value.toNat

def putUint64 (value : UInt64) : List UInt8 := encode 8 value.toNat

/-- Reads the first four bytes; a shorter string reads as its own value. -/
def uint32 (bytes : List UInt8) : UInt32 := UInt32.ofNat (decode (bytes.take 4))

/-- Reads the first eight bytes; a shorter string reads as its own value. -/
def uint64 (bytes : List UInt8) : UInt64 := UInt64.ofNat (decode (bytes.take 8))

@[simp] theorem putUint32_length (value : UInt32) : (putUint32 value).length = 4 :=
  encode_length 4 _

@[simp] theorem putUint64_length (value : UInt64) : (putUint64 value).length = 8 :=
  encode_length 8 _

theorem uint32_put (value : UInt32) (rest : List UInt8) :
    uint32 (putUint32 value ++ rest) = value := by
  have taken : (putUint32 value ++ rest).take 4 = putUint32 value :=
    List.take_left' (putUint32_length value)
  rw [uint32, taken, putUint32, decode_encode_of_lt (by simpa using value.toNat_lt)]
  exact UInt32.ofNat_toNat

theorem uint64_put (value : UInt64) (rest : List UInt8) :
    uint64 (putUint64 value ++ rest) = value := by
  have taken : (putUint64 value ++ rest).take 8 = putUint64 value :=
    List.take_left' (putUint64_length value)
  rw [uint64, taken, putUint64, decode_encode_of_lt (by simpa using value.toNat_lt)]
  exact UInt64.ofNat_toNat

theorem put_uint32 {bytes : List UInt8} (enough : 4 ≤ bytes.length) :
    putUint32 (uint32 bytes) = bytes.take 4 := by
  have size : (bytes.take 4).length = 4 := List.length_take_of_le enough
  have small : decode (bytes.take 4) < 2 ^ 32 := by
    have bound := decode_lt (bytes.take 4)
    rw [size] at bound
    exact bound
  have whole := encode_decode (bytes.take 4)
  rw [size] at whole
  rw [putUint32, uint32, UInt32.toNat_ofNat', Nat.mod_eq_of_lt small, whole]

theorem put_uint64 {bytes : List UInt8} (enough : 8 ≤ bytes.length) :
    putUint64 (uint64 bytes) = bytes.take 8 := by
  have size : (bytes.take 8).length = 8 := List.length_take_of_le enough
  have small : decode (bytes.take 8) < 2 ^ 64 := by
    have bound := decode_lt (bytes.take 8)
    rw [size] at bound
    exact bound
  have whole := encode_decode (bytes.take 8)
  rw [size] at whole
  rw [putUint64, uint64, UInt64.toNat_ofNat', Nat.mod_eq_of_lt small, whole]

end BigEndian
