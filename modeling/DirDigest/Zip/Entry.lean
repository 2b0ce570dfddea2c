import DirDigest.Checksum
import DirDigest.Zip.CodePage
import DirDigest.Zip.Defect
import DirDigest.Zip.Record

/-! # Archive entries

An entry is told by its central header, its name, and the records of its extra field, some of which
correct the header.

* `Entry`: what reading the content of an entry needs.
* `Entry.ofHeader`: the entry of a central header.
* `layoutDefect?`, `Entry.amend`, `Entry.amendAll`: the checks and the effect of the extra field.
-/

set_option autoImplicit false

namespace DirDigest.Zip

/-- An entry of an archive. -/
structure Entry where
  name : String
  encrypted : Bool
  method : Nat
  crc : Nat
  compressedSize : Nat
  size : Nat
  offset : Nat
  /-- Whether a record describes the encryption of the content. -/
  hasCipher : Bool := false
  deriving DecidableEq, Repr

/-- Content as it is. -/
def storedMethod : Nat := 0

/-- Content as a compressed stream. -/
def deflatedMethod : Nat := 8

/-- Encrypted content, whose method the encryption record tells. -/
def cipherMethod : Nat := 99

/-- Whether a name is that of a directory. -/
def isDirectoryName (name : String) : Bool :=
  name.toList.getLast? == some '/' || name.toList.getLast? == some '\\'

/-- Whether an entry is a directory. -/
def Entry.isDirectory (e : Entry) : Bool := isDirectoryName e.name

/-- The text of a name field: UTF-8 if the header says so. -/
def nameText (flags : Nat) (raw : Bytes) : String :=
  if flags.testBit 11 then raw.lossy else codePageText raw

/-- The entry of a central header, before its extra field is taken into account. -/
def Entry.ofHeader (h : CentralHeader) (rawName : Bytes) : Entry where
  name := nameText h.flags rawName
  encrypted := h.flags.testBit 0
  method := h.method
  crc := h.crc
  compressedSize := h.compressedSize
  size := h.size
  offset := h.offset

/-! ## Extra fields -/

/-- A value that stands for a wide one elsewhere. -/
def wideMark : Nat := 0xFFFFFFFF

/-- The bytes of an entry that its Unicode records are checked against. -/
structure RawTexts where
  name : Bytes
  comment : Bytes

/-- Takes a wide value from a record if it is due. -/
def takeWide (due : Bool) (value : Nat) (body : Bytes) : Except Defect (Nat × Bytes) :=
  if !due then .ok (value, body)
  else if body.length < 8 then .error .wideFields
  else .ok (Bytes.toNumber (body.take 8), body.drop 8)

/-- Replaces the values of the header that are too wide for it. -/
def Entry.widen (e : Entry) (body : Bytes) : Except Defect Entry := do
  let all := decide (24 ≤ body.length)
  let (size, body) ← takeWide (all || e.size == wideMark) e.size body
  let (compressedSize, body) ← takeWide (all || e.compressedSize == wideMark) e.compressedSize body
  let (offset, _) ← takeWide (all || e.offset == wideMark) e.offset body
  .ok { e with size := size, compressedSize := compressedSize, offset := offset }

/-- The text of a Unicode record, which holds for one raw text only. -/
def unicodeText (raw body : Bytes) : Except Defect String :=
  if body.length < 5 then .error .unicodeField
  else if Bytes.toNumber ((body.drop 1).take 4) ≠ (digestBytes raw).toNat then .error .unicodeField
  else
    match Bytes.text? (body.drop 5) with
    | some text => .ok text
    | none => .error .unicodeField

/-- Whether the length of a timestamp record fits the times that its first byte announces. -/
def timestampsFit (length : Nat) (flags : UInt8) : Bool :=
  length == 5 || length == 1 + 4 * ((List.range 8).countP flags.toNat.testBit)

/-- Whether two bytes write a number, as far as they are there. -/
def agrees (number : Nat) (field : Bytes) : Bool :=
  field.length < 2 || Bytes.toNumber field == number

/-- Whether a record of file times has the one layout that is known: a length of 32, and the
attribute 1 of 24 bytes after four reserved ones. -/
def fileTimesFit (length : Nat) (body : Bytes) : Bool :=
  length == 32 && agrees 1 ((body.drop 4).take 2) && agrees 24 ((body.drop 6).take 2)

/-- What is wrong with a record by its length and the bytes after it, before it is asked whether the
record ends inside the extra field. -/
def layoutDefect? (tag length : Nat) (rest : Bytes) : Option Defect :=
  match tag, rest with
  | 0x000a, _ => if fileTimesFit length rest then none else some .fileTimes
  | 0x9901, _ => if length = 7 then none else some .encryptionLength
  | 0x5455, flags :: _ => if timestampsFit length flags then none else some .timestamps
  | 0x5455, [] => some .extraField
  | _, _ => none

/-- Takes the method of encrypted content from its encryption record. -/
def Entry.readCipher (e : Entry) (body : Bytes) : Except Defect Entry :=
  match readFields? [2, 2, 1, 2] body with
  | some [version, vendor, strength, method] =>
    if (version = 1 ∨ version = 2) ∧ vendor = 0x4541 ∧ 1 ≤ strength ∧ strength ≤ 3 then
      .ok { e with method := method, hasCipher := true }
    else .error .encryption
  | _ => .error .encryption

/-- The effect of one record of the extra field. -/
def Entry.amend (raw : RawTexts) (e : Entry) (tag : Nat) (body : Bytes) : Except Defect Entry :=
  match tag with
  | 0x0001 => e.widen body
  | 0x7075 => (unicodeText raw.name body).map fun name => { e with name := name }
  | 0x6375 => (unicodeText raw.comment body).map fun _ => e
  | 0x9901 => e.readCipher body
  | _ => .ok e

/-- The effect of an extra field of at most `fuel` records. One byte that is left over is
ignored. -/
def Entry.amendAll (raw : RawTexts) : (fuel : Nat) → Entry → Bytes → Except Defect Entry
  | 0, e, _ => .ok e
  | fuel + 1, e, extra =>
    if extra.length < 2 then .ok e
    else
      match readFields? [2, 2] extra with
      | some [tag, length] =>
        let rest := extra.drop 4
        match layoutDefect? tag length rest with
        | some d => .error d
        | none =>
          if rest.length < length then .error .extraField
          else
            match e.amend raw tag (rest.take length) with
            | .error d => .error d
            | .ok e => amendAll raw fuel e (rest.drop length)
      | _ => .error .extraField

end DirDigest.Zip
