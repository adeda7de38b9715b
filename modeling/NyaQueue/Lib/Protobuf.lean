import Mathlib.Data.List.Basic

/-!
# The proto3 wire format

The encoders of the fields that a message can have: numbers, byte strings and
embedded messages.  A number or a byte string with its default value is not
written.
-/

set_option autoImplicit false

namespace Protobuf

/-- The base-128 digits of a number, the lowest first, in at most `digits`
bytes. -/
def varintDigits : Nat → Nat → List UInt8
  | 0, _ => []
  | digits + 1, n =>
      if n < 128 then [UInt8.ofNat n]
      else UInt8.ofNat (n % 128 + 128) :: varintDigits digits (n / 128)

/-- Ten digits hold any 64-bit number. -/
def varint (n : Nat) : List UInt8 := varintDigits 10 n

def tag (field wireType : Nat) : List UInt8 := varint (field * 8 + wireType)

def varintField (field value : Nat) : List UInt8 :=
  if value = 0 then [] else tag field 0 ++ varint value

/-- An embedded message is written even when it is empty. -/
def messageField (field : Nat) (encoded : List UInt8) : List UInt8 :=
  tag field 2 ++ (varint encoded.length ++ encoded)

def bytesField (field : Nat) (value : List UInt8) : List UInt8 :=
  if value.length = 0 then [] else messageField field value

theorem length_le_messageField (field : Nat) (encoded : List UInt8) :
    encoded.length ≤ (messageField field encoded).length := by
  unfold messageField
  rw [List.length_append, List.length_append]
  omega

theorem length_le_bytesField (field : Nat) (value : List UInt8) :
    value.length ≤ (bytesField field value).length := by
  unfold bytesField
  split
  · rename_i empty
    rw [empty]
    exact Nat.zero_le _
  · exact length_le_messageField field value

end Protobuf
