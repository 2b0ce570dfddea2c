/-! # Byte strings

File contents, path texts and archive fields are lists of bytes. They are compared byte by byte,
the way the order of a listing and of a digest map is defined.

* `utf8 s`: the UTF-8 bytes of a text, and `Bytes.text?`, its partial inverse.
* `utf8_injective`, `bytes_lt_of_not_lt`: what a sorted list of texts needs from the order.
-/

set_option autoImplicit false

namespace DirDigest

/-- A string of bytes. -/
abbrev Bytes := List UInt8

/-- The UTF-8 encoding of a text. -/
def utf8 (s : String) : Bytes := s.toByteArray.data.toList

/-- The text that a byte string encodes, if it is valid UTF-8. -/
def Bytes.text? (b : Bytes) : Option String := String.fromUTF8? ⟨b.toArray⟩

theorem utf8_injective {s t : String} (h : utf8 s = utf8 t) : s = t := by
  have hd : s.toByteArray.data = t.toByteArray.data := Array.toList_inj.1 h
  exact String.toByteArray_inj.1 (ByteArray.ext hd)

theorem utf8_of_text? {b : Bytes} {s : String} (h : Bytes.text? b = some s) : utf8 s = b := by
  unfold Bytes.text? String.fromUTF8? at h
  split at h
  · cases h; simp [utf8, String.fromUTF8]
  · cases h

theorem text?_utf8 (s : String) : Bytes.text? (utf8 s) = some s := by
  have hs : (⟨(utf8 s).toArray⟩ : ByteArray) = s.toByteArray := by simp [utf8]
  unfold Bytes.text?
  rw [hs]
  simp [String.fromUTF8?, String.fromUTF8, s.isValidUTF8]

theorem bytes_lt_of_not_lt {a b : Bytes} (h : ¬ a < b) (hne : a ≠ b) : b < a :=
  Std.lt_of_le_of_ne (List.not_lt.1 h) (Ne.symm hne)

/-! ## Little-endian numbers -/

/-- The number that a byte string writes, least significant byte first. -/
def Bytes.toNumber : Bytes → Nat
  | [] => 0
  | b :: rest => b.toNat + 256 * Bytes.toNumber rest

/-- The `width` low bytes of a number, least significant first. -/
def Bytes.ofNumber : (width : Nat) → Nat → Bytes
  | 0, _ => []
  | width + 1, n => UInt8.ofNat n :: Bytes.ofNumber width (n / 256)

@[simp] theorem length_ofNumber (width n : Nat) : (Bytes.ofNumber width n).length = width := by
  induction width generalizing n with
  | zero => rfl
  | succ width ih => simp [Bytes.ofNumber, ih]

/-- The number of byte strings of a length, and so of the numbers that they write. -/
def byteRange : Nat → Nat
  | 0 => 1
  | width + 1 => 256 * byteRange width

theorem toNumber_ofNumber (width n : Nat) :
    Bytes.toNumber (Bytes.ofNumber width n) = n % byteRange width := by
  induction width generalizing n with
  | zero => simp [Bytes.ofNumber, Bytes.toNumber, byteRange, Nat.mod_one]
  | succ width ih =>
    have hbyte : (UInt8.ofNat n).toNat = n % 256 := UInt8.toNat_ofNat'
    simp only [Bytes.ofNumber, Bytes.toNumber, byteRange, ih, hbyte, Nat.mod_mul]

end DirDigest
