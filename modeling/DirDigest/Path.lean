import DirDigest.Text

/-! # Paths

A path is a byte string; its components are what lies between slashes. Empty components and `.`
components count for nothing, except a `.` that stands first in a relative path.

* `Path.components`: the components of a path.
* `Path.join`: a path continued by another one.
* `Path.fileName?`, `Path.extension?`: the name a path ends in, and what follows its last dot.
* `Path.relativeTo?`: the components below a root.
-/

set_option autoImplicit false

namespace DirDigest

/-- The name of a directory entry. -/
abbrev Name := Bytes

/-- The byte `/`. -/
def slash : UInt8 := 0x2F

/-- The byte `.`. -/
def dot : UInt8 := 0x2E

/-- A path text. -/
structure Path where
  bytes : Bytes
  deriving DecidableEq, Repr

instance : Coe String Path := ⟨fun s => ⟨utf8 s⟩⟩

/-- The printed form of a path. -/
def Path.display (p : Path) : String := p.bytes.lossy

/-! ## Components -/

/-- One component of a path. -/
inductive Component
  | root
  | here
  | up
  | name (n : Name)
  deriving DecidableEq, Repr

/-- The component that a piece between slashes stands for, if any. -/
def Component.ofPiece? (piece : Bytes) : Option Component :=
  if piece = [] ∨ piece = [dot] then none
  else if piece = [dot, dot] then some .up
  else some (.name piece)

/-- Whether a path starts at the root of the file system. -/
def Path.isAbsolute (p : Path) : Bool := p.bytes.head? == some slash

/-- The components of a path. -/
def Path.components (p : Path) : List Component :=
  let pieces := p.bytes.splitOn slash
  let first :=
    if p.isAbsolute then [.root]
    else if pieces.head? = some [dot] then [.here]
    else []
  first ++ pieces.filterMap Component.ofPiece?

/-- A path continued by another one, which counts from the root if it is absolute. -/
def Path.join (p q : Path) : Path :=
  if q.isAbsolute then q
  else if p.bytes = [] ∨ p.bytes.getLast? = some slash then ⟨p.bytes ++ q.bytes⟩
  else ⟨p.bytes ++ slash :: q.bytes⟩

/-! ## Names and extensions -/

/-- The name a path ends in, if its last component is one. -/
def Path.fileName? (p : Path) : Option Name :=
  match p.components.getLast? with
  | some (.name n) => some n
  | _ => none

/-- The part of a name after its last dot. A name without a dot has none, and neither has one whose
only dot leads. -/
def Name.extension? (n : Name) : Option Bytes :=
  match n.reverse.splitOn dot with
  | ext :: stem =>
    if stem = [] ∨ stem = [[]] then none else some ext.reverse
  | [] => none

/-- The extension of the name a path ends in. -/
def Path.extension? (p : Path) : Option Bytes := p.fileName?.bind Name.extension?

/-! ## Paths below a root -/

/-- What is left of a list after a leading part. -/
def afterLeading? {α : Type} [DecidableEq α] : (leading whole : List α) → Option (List α)
  | [], whole => some whole
  | _ :: _, [] => none
  | a :: leading, b :: whole => if a = b then afterLeading? leading whole else none

/-- The components of a path below a root, if the path is below it. -/
def Path.relativeTo? (p root : Path) : Option (List Component) :=
  afterLeading? root.components p.components

/-- Names joined by slashes. -/
def joinNames : List String → String
  | [] => ""
  | [n] => n
  | n :: rest => n ++ "/" ++ joinNames rest

/-- The text of a component that is a name in valid UTF-8. -/
def Component.text? : Component → Option String
  | .name n => n.text?
  | _ => none

/-- The key of a path below a root: its names below the root, joined by slashes. There is none for
the root itself, for a path elsewhere, and where a component below the root is no UTF-8 name. -/
def Path.key? (p root : Path) : Option String :=
  match p.relativeTo? root with
  | none | some [] => none
  | some components => (components.mapM Component.text?).map joinNames

end DirDigest
