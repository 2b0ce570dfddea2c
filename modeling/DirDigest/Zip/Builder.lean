import DirDigest.Deflate.Stored
import DirDigest.Zip.Entry

/-! # Building an archive

An archive is built step by step: settings for the entries that follow, files, and directories.
The local headers with the contents come first, in the order of the steps, then the directory and
the end record.

* `BuildStep`, `BuildFault`: the steps, and why they cannot be carried out.
* `Member`: a file or directory with the settings it was added under, and its content as stored.
* `buildWith`: the archive of a list of steps for any compressor, and `members`, what it holds.
* `build`: the archive for the compressor `Deflate.deflate`.
-/

set_option autoImplicit false

namespace DirDigest.Zip

/-- A step of building an archive. -/
inductive BuildStep
  | file (name : String) (content : Bytes)
  | directory (name : String)
  /-- Compress the files that follow. -/
  | deflated
  /-- The permissions of the files that follow. -/
  | permissions (mode : Nat)
  /-- The date of the files that follow. -/
  | modified (year month day : Nat)

/-- Why an archive cannot be built. -/
inductive BuildFault
  | repeatedName (name : String)
  | invalidDate (year month day : Nat)
  | nameTooLong
  deriving DecidableEq, Repr

/-- The settings for the files that follow. -/
structure Settings where
  compress : Bool := false
  mode : Nat := 0o644
  /-- The packed date; the first day of 1980 at first. -/
  date : Nat := 0x0021

/-- What makes a compressed stream of a content. -/
abbrev Compressor := Bytes → Bytes

/-- The form in which a content is stored. -/
def Settings.store (s : Settings) (compress : Compressor) (content : Bytes) : Bytes :=
  if s.compress then compress content else content

/-- A file or directory of an archive. -/
structure Member where
  name : String
  content : Bytes
  /-- The content as it is stored. -/
  stored : Bytes
  settings : Settings
  /-- The bits of the mode that tell files and directories apart. -/
  kindBits : Nat

/-! ## Dates -/

/-- Whether a year has a leap day. -/
def isLeapYear (year : Nat) : Bool := year % 4 == 0 && (year % 100 != 0 || year % 400 == 0)

/-- The number of days of a month. -/
def daysOfMonth (year month : Nat) : Nat :=
  if month = 2 then if isLeapYear year then 29 else 28
  else if month = 4 ∨ month = 6 ∨ month = 9 ∨ month = 11 then 30
  else 31

/-- The packed form of a date, for the years that it has room for. -/
def packDate? (year month day : Nat) : Option Nat :=
  if 1980 ≤ year ∧ year ≤ 2107 ∧ 1 ≤ month ∧ month ≤ 12 ∧ 1 ≤ day ∧
      day ≤ daysOfMonth year month then
    some ((year - 1980) * 512 + month * 32 + day)
  else none

/-! ## Steps -/

/-- The name under which a directory is added: it ends in a separator. -/
def directoryName (name : String) : String :=
  if isDirectoryName name then name else name ++ "/"

/-- Adds a member, whose name must be new and fit its field. -/
def addMember (members : List Member) (m : Member) : Except BuildFault (List Member) :=
  if members.any (·.name == m.name) then .error (.repeatedName m.name)
  else if 0xFFFF < (utf8 m.name).length then .error .nameTooLong
  else .ok (members ++ [m])

/-- The mode bits of a regular file. -/
def fileBits : Nat := 0o100000

/-- The mode bits of a directory. -/
def directoryBits : Nat := 0o040000

/-- What building has come to. -/
structure Draft where
  settings : Settings := {}
  members : List Member := []

/-- Carries out one step. -/
def Draft.step (compress : Compressor) (d : Draft) : BuildStep → Except BuildFault Draft
  | .file name content =>
    (addMember d.members
      ⟨name, content, d.settings.store compress content, d.settings, fileBits⟩).map
        fun members => { d with members := members }
  | .directory name =>
    (addMember d.members ⟨directoryName name, [], [], { mode := 0o755 }, directoryBits⟩).map
      fun members => { d with members := members }
  | .deflated => .ok { d with settings := { d.settings with compress := true } }
  | .permissions mode => .ok { d with settings := { d.settings with mode := mode } }
  | .modified year month day =>
    match packDate? year month day with
    | some date => .ok { d with settings := { d.settings with date := date } }
    | none => .error (.invalidDate year month day)

/-- The members that a list of steps adds. -/
def members (compress : Compressor) (steps : List BuildStep) : Except BuildFault (List Member) :=
  (steps.foldlM (Draft.step compress) {}).map Draft.members

/-! ## Writing -/

/-- The header flags: bit 11 for a name outside ASCII. -/
def Member.flags (m : Member) : Nat := if (utf8 m.name).all (· < 0x80) then 0 else 0x800

/-- The compression method. -/
def Member.method (m : Member) : Nat :=
  if m.settings.compress then deflatedMethod else storedMethod

/-- The local header of a member. -/
def Member.localHeader (m : Member) : LocalHeader where
  flags := m.flags
  method := m.method
  date := m.settings.date
  crc := (digestBytes m.content).toNat
  compressedSize := m.stored.length
  size := m.content.length
  nameLength := (utf8 m.name).length
  extraLength := 0

/-- The local header, the name and the content of a member. -/
def Member.localBytes (m : Member) : Bytes :=
  writeFields m.localHeader.fields ++ utf8 m.name ++ m.stored

/-- The directory entry of a member whose local header is at `offset`. -/
def Member.centralHeader (m : Member) (offset : Nat) : CentralHeader where
  flags := m.flags
  method := m.method
  date := m.settings.date
  crc := (digestBytes m.content).toNat
  compressedSize := m.stored.length
  size := m.content.length
  nameLength := (utf8 m.name).length
  extraLength := 0
  commentLength := 0
  attributes := (m.settings.mode % 0o1000 + m.kindBits) * 0x10000
  offset := offset

/-- The directory entry of a member with its name. -/
def Member.centralBytes (m : Member) (offset : Nat) : Bytes :=
  writeFields (m.centralHeader offset).fields ++ utf8 m.name

/-- The local headers, names and contents of members. -/
def localPart (members : List Member) : Bytes := members.flatMap Member.localBytes

/-- The directory of members, the first of which is at `offset`. -/
def centralPart : (offset : Nat) → List Member → Bytes
  | _, [] => []
  | offset, m :: rest => m.centralBytes offset ++ centralPart (offset + m.localBytes.length) rest

/-- The end record of an archive of members. -/
def endRecord (members : List Member) : EndRecord where
  disk := 0
  directoryDisk := 0
  entriesHere := members.length
  entries := members.length
  directorySize := (centralPart 0 members).length
  directoryOffset := (localPart members).length
  commentLength := 0

/-- The archive of members. -/
def writeArchive (members : List Member) : Bytes :=
  localPart members ++ centralPart 0 members ++ writeFields (endRecord members).fields

/-- The archive that a list of steps builds with a compressor. -/
def buildWith (compress : Compressor) (steps : List BuildStep) : Except BuildFault Bytes :=
  (members compress steps).map writeArchive

/-- The archive that a list of steps builds. -/
def build (steps : List BuildStep) : Except BuildFault Bytes := buildWith Deflate.deflate steps

end DirDigest.Zip
