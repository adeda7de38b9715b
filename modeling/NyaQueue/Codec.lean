import NyaQueue.Message

/-!
# Compression codecs

Model of `pkg/broker/compression.go`.  The snappy, gzip and lz4 packages are
not part of the repository; they enter as a `CodecLibrary`, and results that
rely on them say so with `Codec.Inverts`.
-/

set_option autoImplicit false

namespace NyaQueue

abbrev CodecError := String

structure Codec where
  encode : Bytes → Except CodecError Bytes
  decode : Bytes → Except CodecError Bytes

/-- Whatever `encode` produces, `decode` takes back to the input. -/
def Codec.Inverts (codec : Codec) : Prop :=
  ∀ plain packed, codec.encode plain = .ok packed → codec.decode packed = .ok plain

def compressionNone : Int := 0
def compressionSnappy : Int := 1
def compressionGzip : Int := 2
def compressionLZ4 : Int := 3

def noopCodec : Codec where
  encode data := .ok data
  decode data := .ok data

theorem noopCodec_inverts : noopCodec.Inverts := by
  intro plain packed encoded
  cases encoded
  rfl

/-- The snappy block format, for values so short that they are always written
as one literal. -/
def shortSnappy : Codec where
  encode data :=
    if data = [] then .ok [0]
    else if data.length ≤ 16 then
      .ok (UInt8.ofNat data.length :: UInt8.ofNat ((data.length - 1) * 4) :: data)
    else .error "not a short value"
  decode
    | [0] => .ok []
    | size :: tag :: data =>
        if size.toNat = data.length ∧ tag.toNat = (data.length - 1) * 4 then .ok data
        else .error "s2: corrupt input"
    | _ => .error "s2: corrupt input"

theorem shortSnappy_inverts : shortSnappy.Inverts := by
  intro plain packed encoded
  simp only [shortSnappy] at encoded ⊢
  split at encoded
  · rename_i empty
    cases encoded
    rw [empty]
    rfl
  · split at encoded
    · rename_i short
      cases encoded
      have size : (UInt8.ofNat plain.length).toNat = plain.length := by
        rw [UInt8.toNat_ofNat']
        omega
      have tag : (UInt8.ofNat ((plain.length - 1) * 4)).toNat = (plain.length - 1) * 4 := by
        rw [UInt8.toNat_ofNat']
        omega
      simp only [size, tag, and_self, if_true]
    · cases encoded

/-- The three third-party codecs. -/
structure CodecLibrary where
  snappyCodec : Codec
  gzipCodec : Codec
  lz4Codec : Codec

structure CodecLibrary.Inverts (lib : CodecLibrary) : Prop where
  snappy : lib.snappyCodec.Inverts
  gzip : lib.gzipCodec.Inverts
  lz4 : lib.lz4Codec.Inverts

/-- A library for samples that use snappy on short values only. -/
def sampleLibrary : CodecLibrary where
  snappyCodec := shortSnappy
  gzipCodec := noopCodec
  lz4Codec := noopCodec

theorem sampleLibrary_inverts : sampleLibrary.Inverts :=
  ⟨shortSnappy_inverts, noopCodec_inverts, noopCodec_inverts⟩

def newCodec (lib : CodecLibrary) (compressionType : Int) : Codec :=
  if compressionType = compressionSnappy then lib.snappyCodec
  else if compressionType = compressionGzip then lib.gzipCodec
  else if compressionType = compressionLZ4 then lib.lz4Codec
  else noopCodec

theorem newCodec_inverts {lib : CodecLibrary} (inverts : lib.Inverts) (compressionType : Int) :
    (newCodec lib compressionType).Inverts := by
  unfold newCodec
  split
  · exact inverts.snappy
  · split
    · exact inverts.gzip
    · split
      · exact inverts.lz4
      · exact noopCodec_inverts

end NyaQueue
