import DirDigest.Bytes

/-! # Bits of a byte string

Compressed data is read bit by bit, least significant bit of each byte first, and here and there
byte by byte from the next whole byte on.

* `BitSource`: what is left to read.
* `BitSource.bit?`, `BitSource.number?`: one bit, a number of several bits.
* `BitSource.align`, `BitSource.bytes?`: the next whole byte, several bytes.
-/

set_option autoImplicit false

namespace DirDigest.Deflate

/-- What is left of a bit stream: the unread bits of the current byte, and the bytes after it. -/
structure BitSource where
  held : List Bool := []
  bytes : Bytes

namespace BitSource

/-- The bits of a byte, least significant first. -/
def byteBits (b : UInt8) : List Bool := (List.range 8).map b.toNat.testBit

/-- A whole byte string, unread. -/
def ofBytes (bytes : Bytes) : BitSource := { bytes := bytes }

/-- The number of unread bits. -/
def size (s : BitSource) : Nat := s.held.length + 8 * s.bytes.length

/-- The next bit. -/
def bit? (s : BitSource) : Option (Bool × BitSource) :=
  match s.held with
  | b :: held => some (b, ⟨held, s.bytes⟩)
  | [] =>
    match s.bytes with
    | [] => none
    | byte :: bytes =>
      match byteBits byte with
      | [] => none
      | b :: held => some (b, ⟨held, bytes⟩)

/-- The number in the next `width` bits, least significant first. -/
def number? : (width : Nat) → BitSource → Option (Nat × BitSource)
  | 0, s => some (0, s)
  | width + 1, s =>
    match s.bit? with
    | none => none
    | some (b, s) =>
      match number? width s with
      | none => none
      | some (n, s) => some (b.toNat + 2 * n, s)

/-- The stream from the next whole byte on. -/
def align (s : BitSource) : BitSource := { s with held := [] }

/-- The next `count` whole bytes. -/
def bytes? (count : Nat) (s : BitSource) : Option (Bytes × BitSource) :=
  if count ≤ s.bytes.length then some (s.bytes.take count, ⟨[], s.bytes.drop count⟩) else none

end BitSource

end DirDigest.Deflate
