import DirDigest.Deflate.Bits

/-! # Stored streams

`deflate` writes a byte string as a stream of stored blocks, each but the last as long as a block
can be.
-/

set_option autoImplicit false

namespace DirDigest.Deflate

/-- The greatest length of a stored block. -/
def maxStored : Nat := 0xFFFF

/-- One stored block. -/
def writeStored (final : Bool) (bytes : Bytes) : Bytes :=
  UInt8.ofNat final.toNat :: (Bytes.ofNumber 2 bytes.length ++
    Bytes.ofNumber 2 (maxStored - bytes.length) ++ bytes)

/-- Stored blocks for a byte string, at most `fuel` before the last one. -/
def writeBlocks : (fuel : Nat) → Bytes → Bytes
  | 0, bytes => writeStored true bytes
  | fuel + 1, bytes =>
    if bytes.length ≤ maxStored then writeStored true bytes
    else writeStored false (bytes.take maxStored) ++ writeBlocks fuel (bytes.drop maxStored)

/-- A compressed stream for a byte string. -/
def deflate (bytes : Bytes) : Bytes := writeBlocks (bytes.length / maxStored) bytes

end DirDigest.Deflate
