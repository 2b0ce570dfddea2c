import DirDigest.Bytes

/-! # Byte strings shown as text

A path that is not valid UTF-8 is still printed: `Bytes.lossy` shows each maximal run of bytes that
begins a character and then breaks off as one replacement character.

* `Sequence`: what is still missing of a multi-byte character.
* `Sequence.read`: the characters of a byte string, one step per byte.
-/

set_option autoImplicit false

namespace DirDigest

/-- The replacement character U+FFFD. -/
def replacement : Char := '\uFFFD'

/-- A character whose first bytes have been read: `missing + 1` further bytes are due, the next one
between `low` and `high`, and `bits` is the number read so far. -/
structure Sequence where
  missing : Nat
  bits : Nat
  low : UInt8
  high : UInt8

/-- What the first byte of a character announces. -/
inductive Lead
  | single (c : Char)
  | many (s : Sequence)
  | invalid

/-- Reads a first byte. The bounds on the second byte rule out overlong forms, surrogates and
numbers above U+10FFFF. -/
def Lead.ofByte (b : UInt8) : Lead :=
  let n := b.toNat
  if n < 0x80 then .single (Char.ofNat n)
  else if n < 0xC2 then .invalid
  else if n < 0xE0 then .many ⟨0, n - 0xC0, 0x80, 0xBF⟩
  else if n < 0xF0 then
    .many ⟨1, n - 0xE0, if n = 0xE0 then 0xA0 else 0x80, if n = 0xED then 0x9F else 0xBF⟩
  else if n < 0xF5 then
    .many ⟨2, n - 0xF0, if n = 0xF0 then 0x90 else 0x80, if n = 0xF4 then 0x8F else 0xBF⟩
  else .invalid

mutual

/-- The characters of a byte string that starts outside a character. -/
def decodeLossy : Bytes → List Char
  | [] => []
  | b :: rest =>
    match Lead.ofByte b with
    | .single c => c :: decodeLossy rest
    | .many s => s.decodeRest rest
    | .invalid => replacement :: decodeLossy rest

/-- The characters of a byte string that starts inside a character. -/
def Sequence.decodeRest (s : Sequence) : Bytes → List Char
  | [] => [replacement]
  | b :: rest =>
    if s.low ≤ b ∧ b ≤ s.high then
      let bits := s.bits * 64 + (b.toNat - 0x80)
      match s.missing with
      | 0 => Char.ofNat bits :: decodeLossy rest
      | missing + 1 => Sequence.decodeRest ⟨missing, bits, 0x80, 0xBF⟩ rest
    else
      match Lead.ofByte b with
      | .single c => replacement :: c :: decodeLossy rest
      | .many t => replacement :: Sequence.decodeRest t rest
      | .invalid => replacement :: replacement :: decodeLossy rest

end

/-- The text of a byte string, with a replacement character for every invalid part. -/
def Bytes.lossy (b : Bytes) : String :=
  match b.text? with
  | some s => s
  | none => String.ofList (decodeLossy b)

theorem lossy_utf8 (s : String) : Bytes.lossy (utf8 s) = s := by
  simp [Bytes.lossy, text?_utf8]

/-! ## White space -/

/-- The characters with the property White_Space. -/
def isBlank (c : Char) : Bool :=
  let n := c.toNat
  (0x09 ≤ n && n ≤ 0x0D) || n = 0x20 || n = 0x85 || n = 0xA0 || n = 0x1680 ||
  (0x2000 ≤ n && n ≤ 0x200A) || n = 0x2028 || n = 0x2029 || n = 0x202F || n = 0x205F || n = 0x3000

/-- A text without the characters at its end that satisfy `drop`. -/
def trimEnd (drop : Char → Bool) (cs : List Char) : List Char :=
  (cs.reverse.dropWhile drop).reverse

/-- A text without the white space at its ends. -/
def trimBlank (cs : List Char) : List Char :=
  trimEnd isBlank (cs.dropWhile isBlank)

end DirDigest
