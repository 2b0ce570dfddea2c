import DirDigest.Bytes

/-! # Archive records

An archive is made of records of fixed layout, each a sequence of little-endian fields that begins
with a signature, and of byte strings whose lengths the records give.

* `writeFields`, `readFields?`: any layout, with `readFields?_writeFields`.
* `LocalHeader`, `CentralHeader`, `EndRecord`, `EndRecord64`, `Locator64`: the records.
* `slice?`: a byte string at an offset of a file.
-/

set_option autoImplicit false

namespace DirDigest.Zip

/-! ## Fields -/

/-- The bytes of a sequence of fields, each given by its width and its value. -/
def writeFields (fields : List (Nat × Nat)) : Bytes :=
  fields.flatMap fun f => Bytes.ofNumber f.1 f.2

/-- The values of the fields of given widths at the start of a byte string. -/
def readFields? : (widths : List Nat) → Bytes → Option (List Nat)
  | [], _ => some []
  | width :: widths, bytes =>
    if bytes.length < width then none
    else (readFields? widths (bytes.drop width)).map (Bytes.toNumber (bytes.take width) :: ·)

theorem readFields?_writeFields (fields : List (Nat × Nat)) (rest : Bytes)
    (h : ∀ f ∈ fields, f.2 < byteRange f.1) :
    readFields? (fields.map Prod.fst) (writeFields fields ++ rest) =
      some (fields.map Prod.snd) := by
  induction fields with
  | nil => rfl
  | cons f fields ih =>
    have hf := h f List.mem_cons_self
    have ih := ih fun g hg => h g (List.mem_cons_of_mem _ hg)
    simp only [writeFields] at ih
    simp only [writeFields, List.flatMap_cons, List.map_cons, readFields?, List.append_assoc]
    rw [if_neg (by simp)]
    rw [List.drop_append_of_le_length (by simp), List.take_append_of_le_length (by simp)]
    rw [List.drop_of_length_le (by simp), List.take_of_length_le (by simp)]
    simp [ih, toNumber_ofNumber, Nat.mod_eq_of_lt hf]

/-- The byte string of length `count` at an offset. -/
def slice? (data : Array UInt8) (offset count : Nat) : Option Bytes :=
  if offset + count ≤ data.size then some (data.extract offset (offset + count)).toList else none

theorem slice?_eq_some {before middle after : Bytes} :
    slice? (before ++ middle ++ after).toArray before.length middle.length = some middle := by
  unfold slice?
  rw [if_pos (by simp)]
  simp

/-! ## Signatures -/

/-- The signature of a local header. -/
def localSignature : Nat := 0x04034b50

/-- The signature of a central header. -/
def centralSignature : Nat := 0x02014b50

/-- The signature of an end record. -/
def endSignature : Nat := 0x06054b50

/-- The signature of an end record with wide fields. -/
def endSignature64 : Nat := 0x06064b50

/-- The signature of the record that locates an end record with wide fields. -/
def locatorSignature64 : Nat := 0x07064b50

/-- Whether a signature stands at an offset. -/
def hasSignature (data : Array UInt8) (signature offset : Nat) : Bool :=
  slice? data offset 4 == some (Bytes.ofNumber 4 signature)

/-! ## Records -/

/-- The record before the content of an entry; its name and its extra field follow it. -/
structure LocalHeader where
  flags : Nat
  method : Nat
  date : Nat
  crc : Nat
  compressedSize : Nat
  size : Nat
  nameLength : Nat
  extraLength : Nat

/-- The length of a local header. -/
def LocalHeader.length : Nat := 30

/-- The fields of a local header. -/
def LocalHeader.fields (h : LocalHeader) : List (Nat × Nat) :=
  [(4, localSignature), (2, 20), (2, h.flags), (2, h.method), (2, 0), (2, h.date), (4, h.crc),
   (4, h.compressedSize), (4, h.size), (2, h.nameLength), (2, h.extraLength)]

/-- The record of an entry in the directory; its name, extra field and comment follow it. -/
structure CentralHeader where
  flags : Nat
  method : Nat
  date : Nat
  crc : Nat
  compressedSize : Nat
  size : Nat
  nameLength : Nat
  extraLength : Nat
  commentLength : Nat
  attributes : Nat
  offset : Nat

/-- The length of a central header. -/
def CentralHeader.length : Nat := 46

/-- The fields of a central header. -/
def CentralHeader.fields (h : CentralHeader) : List (Nat × Nat) :=
  [(4, centralSignature), (2, 0x031e), (2, 20), (2, h.flags), (2, h.method), (2, 0), (2, h.date),
   (4, h.crc), (4, h.compressedSize), (4, h.size), (2, h.nameLength), (2, h.extraLength),
   (2, h.commentLength), (2, 0), (2, 0), (4, h.attributes), (4, h.offset)]

/-- The widths of the fields of a central header. -/
def CentralHeader.widths : List Nat := [4, 2, 2, 2, 2, 2, 2, 4, 4, 4, 2, 2, 2, 2, 2, 4, 4]

/-- The central header at the start of a byte string, with its signature. -/
def CentralHeader.read? (bytes : Bytes) : Option (Nat × CentralHeader) :=
  match readFields? CentralHeader.widths bytes with
  | some [signature, _, _, flags, method, _, date, crc, compressedSize, size, nameLength,
      extraLength, commentLength, _, _, attributes, offset] =>
    some (signature, ⟨flags, method, date, crc, compressedSize, size, nameLength, extraLength,
      commentLength, attributes, offset⟩)
  | _ => none

/-- The record at the end of an archive; a comment follows it. -/
structure EndRecord where
  disk : Nat
  directoryDisk : Nat
  entriesHere : Nat
  entries : Nat
  directorySize : Nat
  directoryOffset : Nat
  commentLength : Nat

/-- The length of an end record. -/
def EndRecord.length : Nat := 22

/-- The fields of an end record. -/
def EndRecord.fields (r : EndRecord) : List (Nat × Nat) :=
  [(4, endSignature), (2, r.disk), (2, r.directoryDisk), (2, r.entriesHere), (2, r.entries),
   (4, r.directorySize), (4, r.directoryOffset), (2, r.commentLength)]

/-- The end record at the start of a byte string. -/
def EndRecord.read? (bytes : Bytes) : Option EndRecord :=
  match readFields? [4, 2, 2, 2, 2, 4, 4, 2] bytes with
  | some [_, disk, directoryDisk, entriesHere, entries, directorySize, directoryOffset,
      commentLength] =>
    some ⟨disk, directoryDisk, entriesHere, entries, directorySize, directoryOffset, commentLength⟩
  | _ => none

/-- The record that tells where an end record with wide fields stands. -/
structure Locator64 where
  disk : Nat
  offset : Nat
  disks : Nat

/-- The length of a locator. -/
def Locator64.length : Nat := 20

/-- The locator at the start of a byte string. -/
def Locator64.read? (bytes : Bytes) : Option Locator64 :=
  match readFields? [4, 4, 8, 4] bytes with
  | some [_, disk, offset, disks] => some ⟨disk, offset, disks⟩
  | _ => none

/-- An end record with wide fields. `recordSize` leaves out the first twelve bytes. -/
structure EndRecord64 where
  recordSize : Nat
  disk : Nat
  directoryDisk : Nat
  entriesHere : Nat
  entries : Nat
  directoryOffset : Nat

/-- The least length of an end record with wide fields. -/
def EndRecord64.length : Nat := 56

/-- The end record with wide fields at the start of a byte string. -/
def EndRecord64.read? (bytes : Bytes) : Option EndRecord64 :=
  match readFields? [4, 8, 2, 2, 4, 4, 8, 8, 8, 8] bytes with
  | some [_, recordSize, _, _, disk, directoryDisk, entriesHere, entries, _, directoryOffset] =>
    some ⟨recordSize, disk, directoryDisk, entriesHere, entries, directoryOffset⟩
  | _ => none

end DirDigest.Zip
