import DirDigest.DigestError
import DirDigest.FileTree.Resolve

/-! # Walking a tree

A walk lists what is below a root: the entries of each directory in byte order of their names, a
directory before its entries. A link is listed and, if links are followed, a linked directory is
entered, unless it is one of the directories that led to it.

* `WalkItem`, `WalkFault`: a path below the root, or why an entry could not be visited.
* `FileTree.visit`, `FileTree.walk`: the items below a directory, and below a root path.
* `walkKeys`, `collectKeys`: the same as keys, and all of them or the first failure.
-/

set_option autoImplicit false

namespace DirDigest

/-- Why a walk could not visit an entry. -/
inductive WalkFault
  | io (path : Path) (cause : IoError)
  /-- The link at `child` leads back to the directory at `ancestor`. -/
  | loop (child ancestor : Path)
  deriving DecidableEq, Repr

/-- A fault as a failure of the walk. -/
def WalkFault.toIoError : WalkFault → IoError
  | .io path cause =>
    .described cause.kind ("IO error for operation on " ++ path.display ++ ": " ++ cause.message)
  | .loop child ancestor =>
    .described .other ("File system loop found: " ++ child.display ++ " points to an ancestor " ++
      ancestor.display)

/-- A path below the root, or a fault. -/
abbrev WalkItem := Except WalkFault Path

/-- A directory on the way from the root to the entry that is visited. -/
structure Ancestor where
  location : Location
  path : Path

namespace FileTree

/-- The greatest number of names in a location. -/
def depth (t : FileTree) : Nat := (t.nodes.map fun e => e.1.length).foldl max 0

/-- A bound on the number of directories on the way to an entry: no directory is entered through a
link twice on one way, and between two links the way only goes down. -/
def wayBound (t : FileTree) : Nat := (t.nodes.length + 2) * (t.depth + 2)

/-- The items below the directory at the head of `chain`, its ancestors following it; `fuel` bounds
the number of directories on a way. -/
def visit (t : FileTree) (follow : Bool) : (fuel : Nat) → (chain : List Ancestor) → List WalkItem
  | 0, _ => []
  | _ + 1, [] => []
  | fuel + 1, here :: above =>
    if pathLimit ≤ here.path.bytes.length then [.error (.io here.path (.system .nameTooLong))]
    else
      (t.children here.location).flatMap fun entry =>
        let child := here.path.join ⟨entry.1⟩
        match entry.2 with
        | .file _ => [.ok child]
        | .directory =>
          .ok child :: t.visit follow fuel (⟨here.location ++ [entry.1], child⟩ :: here :: above)
        | .link _ =>
          if !follow then [.ok child]
          else
            match t.resolve true child with
            | .error cause => [.error (.io child cause)]
            | .ok l =>
              if t.isDirectory l then
                match (here :: above).find? fun a => a.location == l with
                | some a => [.error (.loop child a.path)]
                | none => .ok child :: t.visit follow fuel (⟨l, child⟩ :: here :: above)
              else [.ok child]

/-- The items below a root, which is itself followed if it is a link. A root that is no directory
has nothing below it. -/
def walk (t : FileTree) (follow : Bool) (root : Path) : List WalkItem :=
  match t.resolve true root with
  | .error cause => [.error (.io root cause)]
  | .ok l => if t.isDirectory l then t.visit follow t.wayBound [⟨l, root⟩] else []

end FileTree

/-! ## Keys -/

/-- The key of an item, or why it has none. -/
def WalkItem.key (root : Path) : WalkItem → Except DigestError String
  | .error fault => .error (.io fault.toIoError)
  | .ok path =>
    match path.key? root with
    | some key => .ok key
    | none => .error (.invalidPath path)

/-- The keys below a root, each failure in its place. -/
def walkKeys (t : FileTree) (follow : Bool) (root : Path) : List (Except DigestError String) :=
  (t.walk follow root).map (WalkItem.key root)

/-- Why a path cannot be the root of a run. -/
def checkRoot (t : FileTree) (root : Path) : Except DigestError Unit :=
  match t.stat root with
  | .ok .directory => .ok ()
  | .ok _ => .error (.notADirectory root)
  | .error cause =>
    if cause.kind = .notFound then .error (.rootNotFound root) else .error (.io cause)

/-- All values of a list, or its first failure. -/
def allOrFirst {ε α : Type} : List (Except ε α) → Except ε (List α)
  | [] => .ok []
  | .error e :: _ => .error e
  | .ok a :: rest =>
    match allOrFirst rest with
    | .error e => .error e
    | .ok as => .ok (a :: as)

/-- The keys below a root, or the first failure. -/
def collectKeys (t : FileTree) (follow : Bool) (root : Path) :
    Except DigestError (List String) :=
  match checkRoot t root with
  | .error e => .error e
  | .ok () => allOrFirst (walkKeys t follow root)

end DirDigest
