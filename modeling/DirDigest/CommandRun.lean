import DirDigest.CommandLine.Request
import DirDigest.Digester
import DirDigest.Ignore
import DirDigest.Report.Format

/-! # Running commands

A command digests what it is about and reports the result. It writes its report only when all
digests succeeded; a comparison that asks for it fails after its report if the trees differ.

* `CommandFailure`, `CommandFailure.message`, `CommandFailure.cause?`: why a command fails.
* `Notice`, `CommandRun`: what a command tells on its way, and its outcome.
* `loadIgnored`, `digestTree`: the paths to leave out, and the digests of one tree.
* `Command.run`: running a command.
-/

set_option autoImplicit false

namespace DirDigest

/-! ## Failures -/

/-- Why a command fails. -/
inductive CommandFailure
  | ignoreFile (file : Path) (cause : IoError)
  | digest (target : Path) (e : DigestError)
  | differ (count : Nat)
  deriving DecidableEq, Repr

/-- What is said about a digest that failed. -/
def DigestError.explain (target : Path) : DigestError → String
  | .cancelled => "Digest of '" ++ target.display ++ "' cancelled"
  | .rootNotFound path =>
    "Directory not found: " ++ path.display ++
      "\nHINT: Check the path and that the build was unpacked."
  | .notADirectory path =>
    "Not a directory: " ++ path.display ++
      "\nHINT: Use 'treedigest file' to digest a single file."
  | .invalidPath path =>
    "Cannot digest '" ++ target.display ++ "': path '" ++ path.display ++
      "' cannot be expressed as a relative UTF-8 path" ++
      "\nHINT: Rename the file or add its parent to the ignore list."
  | .read path cause =>
    "I/O error while digesting '" ++ target.display ++ "': cannot read '" ++ path.display ++
      "': " ++ cause.message
  | .io cause => "I/O error while digesting '" ++ target.display ++ "': " ++ cause.message

/-- What is said about a failure. -/
def CommandFailure.message : CommandFailure → String
  | .ignoreFile file _ => "failed to read ignore file '" ++ file.display ++ "'"
  | .digest target e => e.explain target
  | .differ count => "Trees differ: " ++ toString count ++ " paths"

/-- What is behind a failure, where that is told apart. -/
def CommandFailure.cause? : CommandFailure → Option String
  | .ignoreFile _ cause => some cause.message
  | _ => none

/-! ## Runs -/

/-- What a command tells on its way. -/
inductive Notice
  | event (e : Event)
  | warning (text : String)
  deriving DecidableEq, Repr

/-- The outcome of a command: what it told, its report, and its failure if it fails. -/
structure CommandRun where
  notices : List Notice := []
  report : String := ""
  failure : Option CommandFailure := none

/-- The failure of a file that should be a text. -/
def notText : IoError := .described .invalidData "stream did not contain valid UTF-8"

/-- The text in a file. -/
def FileTree.readText (t : FileTree) (p : Path) : Except IoError String :=
  match t.readFile p with
  | .error cause => .error cause
  | .ok content =>
    match content.text? with
    | some text => .ok text
    | none => .error notText

/-- The paths that a command leaves out. -/
def loadIgnored (t : FileTree) (options : TreeOptions) : Except CommandFailure (List String) :=
  match options.ignoreFile with
  | none => .ok (ignoreSet options.ignored none)
  | some file =>
    match t.readText file with
    | .ok text => .ok (ignoreSet options.ignored (some text))
    | .error cause => .error (.ignoreFile file cause)

/-- The configuration with given archive extensions, or with the usual ones if there is none. -/
def extensionConfig (extensions : List String) : Config :=
  if extensions.isEmpty then {} else { archiveExtensions := extensions }

/-- The configuration that tree options make up. -/
def TreeOptions.config (options : TreeOptions) : Config :=
  { extensionConfig options.archiveExtensions with followLinks := options.followLinks }

/-- The digests of one tree, with the events on the way. -/
def digestTree (t : FileTree) (root : Path) (options : TreeOptions) (ignored : List String) :
    Except DigestError DigestMap × List Event :=
  let run := (Digester.new options.config).digestDirectory t root ignored .counting 0
  (run.result, run.events ++ [.walkFinished root run.sink])

/-- Digests a tree. -/
def runDigest (t : FileTree) (f : Format) (root : Path) (options : TreeOptions) : CommandRun :=
  match loadIgnored t options with
  | .error failure => { failure := some failure }
  | .ok ignored =>
    match digestTree t root options ignored with
    | (.error e, events) =>
      { notices := events.map .event, failure := some (.digest root e) }
    | (.ok map, events) =>
      { notices := (events ++ [Event.digestComplete root map.size]).map .event
        report := f.map root map }

/-- What is warned of when a single directory is digested. -/
def directoryWarning (path : Path) : String :=
  path.display ++ " is a directory; directories always digest to 00000000"

/-- Whether a path leads to a directory. -/
def FileTree.leadsToDirectory (t : FileTree) (p : Path) : Bool :=
  match t.stat p with
  | .ok node => node.isDirectory
  | .error _ => false

/-- Digests a single path. -/
def runFile (t : FileTree) (f : Format) (path : Path) (extensions : List String) : CommandRun :=
  let warnings :=
    if t.leadsToDirectory path then [Notice.warning (f.warning (directoryWarning path))] else []
  let run := (Digester.new (extensionConfig extensions)).digestPath t path
  let notices := warnings ++ run.events.map .event
  match run.result with
  | .error e => { notices := notices, failure := some (.digest path e) }
  | .ok digest => { notices := notices, report := f.file path digest }

/-- Compares two trees. -/
def runDiff (t : FileTree) (f : Format) (old new : Path) (exitCode : Bool)
    (options : TreeOptions) : CommandRun :=
  match loadIgnored t options with
  | .error failure => { failure := some failure }
  | .ok ignored =>
    match digestTree t old options ignored with
    | (.error e, events) => { notices := events.map .event, failure := some (.digest old e) }
    | (.ok before, events) =>
      match digestTree t new options ignored with
      | (.error e, later) =>
        { notices := (events ++ later).map .event, failure := some (.digest new e) }
      | (.ok after, later) =>
        let d := difference before after
        let complete := Event.diffComplete d.added.length d.removed.length d.changed.length
        { notices := (events ++ later ++ [complete]).map .event
          report := f.diff old new d
          failure := if exitCode && !d.isEmpty then some (.differ d.total) else none }

/-- Runs a command. -/
def Command.run (t : FileTree) (f : Format) : Command → CommandRun
  | .digest root options => runDigest t f root options
  | .file path extensions => runFile t f path extensions
  | .diff old new exitCode options => runDiff t f old new exitCode options

end DirDigest
