import DirDigest.FileTree.Edit
import DirDigest.Program

/-! # The command line

`main` loads what the paths on the command line lead to, runs the program on it and prints the
transcript.
-/

set_option autoImplicit false

namespace DirDigest

/-- The names in a path text. -/
def nameTexts (path : String) : List String :=
  (path.splitOn "/").filter fun n => n != "" && n != "."

/-- Puts a node into a tree; what cannot be put is left out. -/
def placed (t : FileTree) (path : String) (node : Node) : FileTree :=
  match t.put path node with
  | .ok t => t
  | .error _ => t

/-- A link that leads nowhere: no name holds a zero byte. -/
def deadLink : Node := .link ⟨[0]⟩

/-- Whether something has been loaded at a path. -/
def isLoaded (t : FileTree) (path : String) : Bool :=
  match t.lstat path with
  | .ok _ => true
  | .error _ => false

mutual

/-- Loads the entry `name` of a directory, below it if `deep` is set, and what is below the target
of a link if `enter` is set. Links below directories are entered if `follow` is set. -/
partial def loadEntry (follow : Bool) (t : FileTree) (directory name : String)
    (deep enter : Bool) : IO FileTree := do
  let path := directory ++ "/" ++ name
  let entry : IO.FS.DirEntry := { root := directory ++ "/", fileName := name }
  let data ← try pure (some (← entry.path.symlinkMetadata)) catch _ => pure none
  match data with
  | none => return t
  | some data =>
    match data.type with
    | .dir =>
      let t := placed t path .directory
      if deep then loadBelow follow t path else return t
    | .symlink =>
      if isLoaded t path then return t
      let target ← try pure (some (← IO.FS.realPath path)) catch _ => pure none
      match target with
      | none => return placed t path deadLink
      | some target =>
        loadPath follow (placed t path (.link target.toString)) target.toString enter
    | _ =>
      if isLoaded t path then return t
      let content ← IO.FS.readBinFile path
      return placed t path (.file content.toList)

/-- Loads what is below a directory. -/
partial def loadBelow (follow : Bool) (t : FileTree) (directory : String) : IO FileTree := do
  let root ← IO.FS.realPath directory
  let mut tree := t
  for entry in ← root.readDir do
    tree ← loadEntry follow tree directory entry.fileName true follow
  return tree

/-- Loads what is on the way of an absolute path, and below its end if `deep` is set. -/
partial def loadPath (follow : Bool) (t : FileTree) (path : String) (deep : Bool) :
    IO FileTree := do
  let mut tree := t
  let mut directory := ""
  let names := nameTexts path
  for (name, place) in names.zipIdx do
    let deep := deep && place + 1 == names.length
    tree ← loadEntry follow tree directory name deep deep
    directory := directory ++ "/" ++ name
  return tree

end

/-- The paths that a command is about, and whether it needs what is below them. -/
def Command.paths : Command → List (Path × Bool)
  | .digest root options => (root, true) :: options.ignoreFile.toList.map fun p => (p, false)
  | .file path _ => [(path, false)]
  | .diff old new _ options =>
    (old, true) :: (new, true) :: options.ignoreFile.toList.map fun p => (p, false)

/-- Whether a command follows links. -/
def Command.followsLinks : Command → Bool
  | .digest _ options | .diff _ _ _ options => options.followLinks
  | .file _ _ => false

/-- Loads the tree that a command line is about. -/
def loadTree (arguments : List Bytes) : IO FileTree := do
  let here := (← IO.currentDir).toString
  let base := placed .empty here .directory
  let mut tree := base.withHome ((nameTexts here).map utf8)
  match Request.ofArguments arguments with
  | .ok (.run i) =>
    for (path, deep) in i.command.paths do
      let whole := ((here ++ "/" : String) : Path).join path
      tree ← loadPath i.command.followsLinks tree whole.display deep
    return tree
  | _ => return tree

/-- The variables that the program looks at. -/
def loadEnvironment : IO Environment := do
  let found ← [logVariable, colorVariable].mapM fun name => do
    return (← IO.getEnv name).map fun value => (name, value)
  return found.filterMap id

end DirDigest

/-- Runs the program. -/
def main (arguments : List String) : IO UInt32 := do
  let arguments := arguments.map DirDigest.utf8
  let tree ← DirDigest.loadTree arguments
  let run := DirDigest.runProgram (← DirDigest.loadEnvironment) arguments tree
  (← IO.getStdout).putStr run.out
  (← IO.getStderr).putStr run.err
  return UInt32.ofNat run.code
