import DirDigest.FileTree.Resolve

/-! # Changing a tree by paths

* `FileTree.put`: places a node at a path and makes the directories that lead to it.
* `FileTree.remove`: removes what is at a path, with all that is below it.
-/

set_option autoImplicit false

namespace DirDigest

namespace FileTree

/-- The outcome of a change that the tree refuses. -/
def refused : IoError := .system .accessDenied

/-- Adds a node to a directory. -/
def add (t : FileTree) (parent : Location) (name : Name) (node : Node) :
    Except IoError FileTree :=
  match t.insert? parent name node with
  | some t => .ok t
  | none => .error refused

/-- Walks segments from a location and makes the directories that are missing. -/
def makeDirectories : List Bytes → FileTree → Location → Except IoError (FileTree × Location)
  | [], t, l => .ok (t, l)
  | segment :: rest, t, l =>
    if segment = [dot] then makeDirectories rest t l
    else if segment = [dot, dot] then makeDirectories rest t l.dropLast
    else
      match t.node? (l ++ [segment]) with
      | none =>
        match t.add l segment .directory with
        | .ok t => makeDirectories rest t (l ++ [segment])
        | .error e => .error e
      | some _ =>
        match t.resolveFrom true maxLinks l [segment] with
        | .ok l =>
          if t.isDirectory l then makeDirectories rest t l
          else .error (.bare .alreadyExists)
        | .error e => .error (.system e)

/-- Replaces the file or link at a location. -/
def swap (t : FileTree) (l : Location) (node : Node) : Except IoError FileTree :=
  match t.replace? l node with
  | some t => .ok t
  | none => .error (.system .isDirectory)

/-- Writes a file, through at most `links` links. -/
def writeFile (content : Bytes) : (links : Nat) → FileTree → Location → List Bytes →
    Except IoError FileTree
  | links, t, l, steps => do
    let (t, parent) ← makeDirectories steps.dropLast t l
    match steps.getLast? with
    | none => .error (.system .isDirectory)
    | some name =>
      match t.node? (parent ++ [name]) with
      | none => t.add parent name (.file content)
      | some (.link target) =>
        match links with
        | 0 => .error (.system .tooManyLinks)
        | links + 1 => writeFile content links t (start parent target) (segments target)
      | some _ => t.swap (parent ++ [name]) (.file content)

/-- Places a node at a path. A directory that is already there stays; the content of a file goes to
where a link points; a link takes the place of a file or link. -/
def put (t : FileTree) (p : Path) (node : Node) : Except IoError FileTree :=
  let base := start t.home p
  let steps := segments p
  match node with
  | .directory => (makeDirectories steps t base).map Prod.fst
  | .file content => writeFile content maxLinks t base steps
  | .link _ => do
    let (t, parent) ← makeDirectories steps.dropLast t base
    match steps.getLast? with
    | none => .error (.bare .alreadyExists)
    | some name =>
      match t.node? (parent ++ [name]) with
      | none => t.add parent name node
      | some _ => t.swap (parent ++ [name]) node

/-- Removes what is at a path; a link is removed itself. -/
def remove (t : FileTree) (p : Path) : Except IoError FileTree :=
  (t.resolve false p).map t.erase

end FileTree

end DirDigest
