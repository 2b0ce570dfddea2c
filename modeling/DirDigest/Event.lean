import DirDigest.Difference
import DirDigest.Path

/-! # Events

What a run tells while it goes on.

* `Event`: the events.
* `Event.level`, `Event.target`, `Event.message`, `Event.fields`: their parts.
* `Event.line`: an event as a line of a log.
-/

set_option autoImplicit false

namespace DirDigest

/-- How important an event is. -/
inductive Level
  | error
  | warn
  | info
  | debug
  | trace
  deriving DecidableEq, Repr

/-- The name of a level. -/
def Level.name : Level → String
  | .error => "ERROR"
  | .warn => "WARN"
  | .info => "INFO"
  | .debug => "DEBUG"
  | .trace => "TRACE"

/-- How much a level lets through: all events of its rank and below. -/
def Level.rank : Level → Nat
  | .error => 1
  | .warn => 2
  | .info => 3
  | .debug => 4
  | .trace => 5

/-- An event of a run. -/
inductive Event
  | addedFile (path : Path)
  | addedDirectory (path : Path)
  | followedLink (path : Path)
  | unreadableArchive (path : Path) (reason : String)
  | digestedDirectory (root : Path) (entries : Nat)
  | walkFinished (root : Path) (reported : Nat)
  | digestComplete (root : Path) (entries : Nat)
  | diffComplete (added removed changed : Nat)
  deriving DecidableEq, Repr

namespace Event

/-- The level of an event. -/
def level : Event → Level
  | .unreadableArchive .. => .warn
  | .digestComplete .. | .diffComplete .. => .info
  | _ => .debug

/-- The part of the program that an event comes from. -/
def target : Event → String
  | .walkFinished .. => "treedigest::commands"
  | .digestComplete .. => "treedigest::commands::digest"
  | .diffComplete .. => "treedigest::commands::diff"
  | _ => "treedigest_core::engine"

/-- What an event says. -/
def message : Event → String
  | .addedFile _ => "added file"
  | .addedDirectory _ => "added directory"
  | .followedLink _ => "path is a symlink, digesting its target"
  | .unreadableArchive .. => "cannot open as archive, digesting raw bytes"
  | .digestedDirectory .. => "digested directory"
  | .walkFinished .. => "tree walk finished"
  | .digestComplete .. => "digest complete"
  | .diffComplete .. => "diff complete"

/-- The values that an event carries, under their names. -/
def fields : Event → List (String × String)
  | .addedFile path | .addedDirectory path | .followedLink path => [("path", path.display)]
  | .unreadableArchive path reason => [("path", path.display), ("error", reason)]
  | .digestedDirectory root entries | .digestComplete root entries =>
    [("root", root.display), ("entries", toString entries)]
  | .walkFinished root reported => [("root", root.display), ("reported", toString reported)]
  | .diffComplete added removed changed =>
    [("added", toString added), ("removed", toString removed), ("changed", toString changed)]

/-- An event as a line of a log. -/
def line (e : Event) : String :=
  e.level.name ++ " " ++ e.target ++ ": " ++ e.message ++
    String.join (e.fields.map fun f => " " ++ f.1 ++ "=" ++ f.2)

end Event

end DirDigest
