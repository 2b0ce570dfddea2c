import DirDigest.Bytes

/-! # CRC-32

The IEEE checksum: the bits of a byte string, least significant bit of each byte first, are fed
into a 32-bit register that is divided by the reflected polynomial `0xEDB88320`; the register
starts with all bits set and is complemented at the end.

* `Register.shift`, `Register.absorb`, `Register.run`: one bit, one byte, one byte string.
* `Checksum`: an accumulator, whose value can be read at any time.
* `digestBytes`: the digest of a byte string.
-/

set_option autoImplicit false

namespace DirDigest

/-- A digest: a CRC-32, held in 64 bits. -/
abbrev Digest := UInt64

/-- The digest of every directory. -/
def directoryDigest : Digest := 0

/-! ## The register -/

/-- The reflected generator polynomial, without its leading term. -/
def polynomial : UInt32 := 0xEDB88320

/-- One division step. -/
def Register.shift (s : UInt32) : UInt32 :=
  if s &&& 1 = 1 then (s >>> 1) ^^^ polynomial else s >>> 1

/-- `n` division steps. -/
def Register.shifts : Nat → UInt32 → UInt32
  | 0, s => s
  | n + 1, s => Register.shifts n (Register.shift s)

/-- The register after one more byte. -/
def Register.absorb (s : UInt32) (b : UInt8) : UInt32 := Register.shifts 8 (s ^^^ b.toUInt32)

/-- The register after a byte string. -/
def Register.run (s : UInt32) (bytes : Bytes) : UInt32 := bytes.foldl Register.absorb s

theorem Register.run_append (s : UInt32) (a b : Bytes) :
    Register.run s (a ++ b) = Register.run (Register.run s a) b := List.foldl_append

/-! ## Accumulators -/

/-- A running checksum. -/
structure Checksum where
  register : UInt32
  deriving DecidableEq, Repr

/-- The checksum of no bytes. -/
def Checksum.empty : Checksum := ⟨0xFFFFFFFF⟩

/-- Absorbs bytes. -/
def Checksum.update (c : Checksum) (bytes : Bytes) : Checksum := ⟨Register.run c.register bytes⟩

/-- The digest of all bytes absorbed so far. -/
def Checksum.value (c : Checksum) : Digest := (c.register ^^^ 0xFFFFFFFF).toUInt64

@[simp] theorem Checksum.update_nil (c : Checksum) : c.update [] = c := rfl

@[simp] theorem Checksum.update_update (c : Checksum) (a b : Bytes) :
    (c.update a).update b = c.update (a ++ b) := by
  simp [Checksum.update, Register.run_append]

/-- The digest of a byte string. -/
def digestBytes (bytes : Bytes) : Digest := (Checksum.empty.update bytes).value

end DirDigest
