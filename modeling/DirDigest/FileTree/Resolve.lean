import DirDigest.FileTree.Basic
import DirDigest.IoError

/-! # Resolving paths

A path leads through the tree one segment at a time. A link on the way is replaced by its target;
after forty of them the path leads nowhere. A slash at the end of a path asks for a directory.

* `segments`: the steps of a path.
* `FileTree.advance`, `FileTree.resolveFrom`: the way up to the next link, and all of it.
* `FileTree.resolve`: the location that a path leads to, with or without following a final link.
* `FileTree.stat`, `FileTree.lstat`, `FileTree.readFile`: what is there.
-/

set_option autoImplicit false

namespace DirDigest

/-- The greatest number of links on the way of one path. -/
def maxLinks : Nat := 40

/-- The greatest length of a name. -/
def maxNameLength : Nat := 255

/-- The length that a path must not reach. -/
def pathLimit : Nat := 4096

/-- The steps of a path: its pieces between slashes, and a step in place for a slash at the end. -/
def segments (p : Path) : List Bytes :=
  (p.bytes.splitOn slash).filter (fun piece => !piece.isEmpty) ++
    if p.bytes.getLast? = some slash then [[dot]] else []

/-- How far a path leads without following a link. -/
inductive Arrival
  | at (l : Location)
  /-- The link in the directory `base` points to `target`, and `rest` remains after it. -/
  | link (base : Location) (target : Path) (rest : List Bytes)

namespace FileTree

/-- Walks segments from a location up to their end or up to the first link that is followed. The
last segment is followed if `follow` is set. -/
def advance (t : FileTree) (follow : Bool) : Location → List Bytes → Except Errno Arrival
  | l, [] => .ok (.at l)
  | l, segment :: rest =>
    match t.node? l with
    | none => .error .noEntry
    | some .directory =>
      if segment = [dot] then t.advance follow l rest
      else if segment = [dot, dot] then t.advance follow l.dropLast rest
      else if maxNameLength < segment.length then .error .nameTooLong
      else
        match t.node? (l ++ [segment]) with
        | none => .error .noEntry
        | some (.link target) =>
          if rest ≠ [] ∨ follow then .ok (.link l target rest) else .ok (.at (l ++ [segment]))
        | some _ => t.advance follow (l ++ [segment]) rest
    | some _ => .error .notDirectory

/-- The location at which a path starts that is met in a given directory. -/
def start (base : Location) (p : Path) : Location := if p.isAbsolute then [] else base

/-- Walks segments from a location, through at most `links` links. -/
def resolveFrom (t : FileTree) (follow : Bool) : (links : Nat) → Location → List Bytes →
    Except Errno Location
  | 0, l, steps =>
    match t.advance follow l steps with
    | .error e => .error e
    | .ok (.at l) => .ok l
    | .ok (.link _ _ _) => .error .tooManyLinks
  | links + 1, l, steps =>
    match t.advance follow l steps with
    | .error e => .error e
    | .ok (.at l) => .ok l
    | .ok (.link base target rest) =>
      t.resolveFrom follow links (start base target) (segments target ++ rest)

/-- The failure of a path with a zero byte. -/
def zeroByte : IoError := .described .invalidInput "file name contained an unexpected NUL byte"

/-- The location that a path leads to. -/
def resolve (t : FileTree) (follow : Bool) (p : Path) : Except IoError Location :=
  if p.bytes.contains 0 then .error zeroByte
  else if p.bytes.isEmpty then .error (.system .noEntry)
  else if pathLimit ≤ p.bytes.length then .error (.system .nameTooLong)
  else (t.resolveFrom follow maxLinks (start t.home p) (segments p)).mapError .system

/-- The node that a path leads to. -/
def nodeAt (t : FileTree) (follow : Bool) (p : Path) : Except IoError Node :=
  match t.resolve follow p with
  | .error e => .error e
  | .ok l =>
    match t.node? l with
    | some node => .ok node
    | none => .error (.system .noEntry)

/-- The node at a path, with a final link followed. -/
def stat (t : FileTree) (p : Path) : Except IoError Node := t.nodeAt true p

/-- The node at a path, which may be a link. -/
def lstat (t : FileTree) (p : Path) : Except IoError Node := t.nodeAt false p

/-- The content of the file at a path. -/
def readFile (t : FileTree) (p : Path) : Except IoError Bytes :=
  match t.stat p with
  | .error e => .error e
  | .ok (.file content) => .ok content
  | .ok _ => .error (.system .isDirectory)

end FileTree

end DirDigest
