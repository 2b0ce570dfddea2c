import DirDigest.Zip.Entry

/-! # Opening an archive

An archive is read from its end: an end record tells where the directory is, and the directory
tells the entries. Other bytes may stand before the archive, so that all its offsets are shifted.
A byte string that looks like an end record and is none is passed over, and the search goes on
before it.

* `Directory`, `directoryOfEnd`: where the directory is, according to an end record.
* `Directory.entries`: the entries that it lists.
* `Archive`, `Archive.ofBytes`: an open archive; `Archive.search` is the search for its end record.
-/

set_option autoImplicit false

namespace DirDigest.Zip

/-- Where a directory is and what is said about it. -/
structure Directory where
  /-- The offset in the archive. -/
  offset : Nat
  /-- The number of bytes before the archive. -/
  shift : Nat
  entries : Nat
  entriesHere : Nat
  disk : Nat
  directoryDisk : Nat

/-! ## Searching -/

/-- The first of `count` offsets from `start` on at which a signature stands. -/
def findSignature? (data : Array UInt8) (signature : Nat) : (count start : Nat) → Option Nat
  | 0, _ => none
  | count + 1, start =>
    if hasSignature data signature start then some start
    else findSignature? data signature count (start + 1)

/-- The least offset from `start` on, with the signature before `stop`. -/
def firstSignature? (data : Array UInt8) (signature start stop : Nat) : Option Nat :=
  findSignature? data signature (stop - 3 - start) start

/-! ## From the end record to the directory -/

/-- The directory of a narrow end record at `position`. -/
def narrowDirectory (data : Array UInt8) (position : Nat) (r : EndRecord) :
    Except Defect Directory :=
  let directory (shift : Nat) : Directory :=
    ⟨r.directoryOffset, shift, r.entriesHere, 0, r.disk, r.directoryDisk⟩
  if r.entries = 0 then .ok (directory (position - r.directoryOffset))
  else if position ≤ r.directoryOffset then .error .directoryOffset
  else
    match firstSignature? data centralSignature r.directoryOffset position with
    | some found => .ok (directory (found - r.directoryOffset))
    | none => .error .noDirectory

/-- The directory of the wide end record at `position`, if it agrees with its locator. -/
def wideDirectoryAt (data : Array UInt8) (locatorPosition : Nat) (l : Locator64)
    (position : Nat) : Except Defect Directory :=
  match (slice? data position EndRecord64.length).bind EndRecord64.read? with
  | none => .error .endRecord64
  | some r =>
    if r.recordSize < 44 ∨ r.recordSize + 12 ≠ locatorPosition - position ∨
        r.directoryDisk ≠ l.disk ∨
        position < r.entries * CentralHeader.length + r.directoryOffset then .error .endRecord64
    else .ok ⟨r.directoryOffset, position - l.offset, r.entries, r.entriesHere, r.disk,
      r.directoryDisk⟩

/-- The directory of the first fitting wide end record among `count` offsets from `start` on. -/
def findWideDirectory (data : Array UInt8) (locatorPosition : Nat) (l : Locator64) :
    (count start : Nat) → Defect → Except Defect Directory
  | 0, _, defect => .error defect
  | count + 1, start, defect =>
    if hasSignature data endSignature64 start then
      match wideDirectoryAt data locatorPosition l start with
      | .ok directory => .ok directory
      | .error d => findWideDirectory data locatorPosition l count (start + 1) d
    else findWideDirectory data locatorPosition l count (start + 1) defect

/-- The directory that a locator leads to. -/
def wideDirectory (data : Array UInt8) (locatorPosition : Nat) (l : Locator64) :
    Except Defect Directory :=
  if locatorPosition ≤ l.offset then .error .locatorOffset
  else if 1 < l.disks then .error .locatorDisks
  else findWideDirectory data locatorPosition l (locatorPosition - 3 - l.offset) l.offset
    .noEndRecord64

/-- The locator directly before an end record. -/
def locatorBefore? (data : Array UInt8) (position : Nat) : Option Locator64 :=
  if position < Locator64.length then none
  else if hasSignature data locatorSignature64 (position - Locator64.length) then
    (slice? data (position - Locator64.length) Locator64.length).bind Locator64.read?
  else none

/-- The directory according to the end record at `position`. -/
def directoryOfEnd (data : Array UInt8) (position : Nat) : Except Defect Directory :=
  match (slice? data position EndRecord.length).bind EndRecord.read? with
  | none => .error .endRecordCut
  | some r =>
    if data.size < position + EndRecord.length + r.commentLength then .error .commentCut
    else if r.entries = 0xFFFF ∨ r.directoryOffset = wideMark then
      match locatorBefore? data position with
      | some l => wideDirectory data (position - Locator64.length) l
      | none => narrowDirectory data position r
    else narrowDirectory data position r

/-! ## The entries of a directory -/

/-- Adds an entry; one of the same name is replaced where it stands. -/
def addEntry (entries : List Entry) (e : Entry) : List Entry :=
  if entries.any (·.name == e.name) then
    entries.map fun old => if old.name == e.name then e else old
  else entries ++ [e]

/-- The entry at `position` in a directory, and the position after it. -/
def readEntry (data : Array UInt8) (shift position : Nat) : Except Defect (Entry × Nat) :=
  match (slice? data position CentralHeader.length).bind CentralHeader.read? with
  | none => .error .headerCut
  | some (signature, h) =>
    if signature ≠ centralSignature then .error .headerSignature
    else
      let namePosition := position + CentralHeader.length
      let extraPosition := namePosition + h.nameLength
      let commentPosition := extraPosition + h.extraLength
      match slice? data namePosition h.nameLength, slice? data extraPosition h.extraLength,
          slice? data commentPosition h.commentLength with
      | some name, some extra, some comment =>
        match (Entry.ofHeader h name).amendAll ⟨name, comment⟩ extra.length extra with
        | .error d => .error d
        | .ok e =>
          if e.method = cipherMethod ∧ !e.hasCipher then .error .encryption
          else if 0x10000000000000000 ≤ e.offset + shift then .error .headerOffset
          else .ok ({ e with offset := e.offset + shift }, commentPosition + h.commentLength)
      | _, _, _ => .error .headerCut

/-- Adds `count` entries, listed from `position` on, to those before them. -/
def readEntries (data : Array UInt8) (shift : Nat) : (count position : Nat) → List Entry →
    Except Defect (List Entry)
  | 0, _, entries => .ok entries
  | count + 1, position, entries =>
    match readEntry data shift position with
    | .error d => .error d
    | .ok (e, position) => readEntries data shift count position (addEntry entries e)

/-- The entries of a directory. -/
def Directory.readEntries (data : Array UInt8) (d : Directory) : Except Defect (List Entry) :=
  if d.entries < d.entriesHere then .error .entryCount
  else if d.disk ≠ d.directoryDisk then .error .severalDisks
  else Zip.readEntries data d.shift d.entries (d.offset + d.shift) []

/-! ## Archives -/

/-- An open archive: its bytes and its entries, without repeated names. -/
structure Archive where
  data : Array UInt8
  entries : List Entry

/-- Searches for an end record below an offset. `failure` tells what was wrong with the directory
of the last end record that had one, `defect` what was wrong with the last one that had none. -/
def Archive.search (data : Array UInt8) : (below : Nat) → (failure : Option Defect) → Defect →
    Except Defect Archive
  | 0, failure, defect => .error (failure.getD defect)
  | position + 1, failure, defect =>
    if hasSignature data endSignature position then
      match directoryOfEnd data position with
      | .error d => search data position failure d
      | .ok directory =>
        match directory.readEntries data with
        | .ok entries => .ok ⟨data, entries⟩
        | .error d => search data position (some d) defect
    else search data position failure defect

/-- Opens the archive that a byte string holds. -/
def Archive.ofBytes (bytes : Bytes) : Except Defect Archive :=
  Archive.search bytes.toArray bytes.length none .noEndRecord

end DirDigest.Zip
