import DirDigest.IoError
import DirDigest.Path

/-! # Failures of a digest run

* `DigestError`: why there is no digest.
* `DigestError.message`, `DigestError.path?`, `DigestError.cause?`: what can be told of it.
-/

set_option autoImplicit false

namespace DirDigest

/-- Why a path or a tree has no digest. -/
inductive DigestError
  /-- The tree could not be walked. -/
  | io (cause : IoError)
  /-- The content at a path could not be read. -/
  | read (path : Path) (cause : IoError)
  /-- The caller called the run off. -/
  | cancelled
  /-- There is no root. -/
  | rootNotFound (path : Path)
  /-- The root is no directory. -/
  | notADirectory (path : Path)
  /-- A path below the root has no key. -/
  | invalidPath (path : Path)
  deriving DecidableEq, Repr

/-- The text of a failure. -/
def DigestError.message : DigestError → String
  | .io cause => "I/O error: " ++ cause.message
  | .read path cause => "I/O error reading " ++ path.display ++ ": " ++ cause.message
  | .cancelled => "operation cancelled"
  | .rootNotFound path => "root directory not found: " ++ path.display
  | .notADirectory path => "not a directory: " ++ path.display
  | .invalidPath path => "cannot express as a relative UTF-8 path: " ++ path.display

/-- The path that a failure is about. -/
def DigestError.path? : DigestError → Option Path
  | .read path _ | .rootNotFound path | .notADirectory path | .invalidPath path => some path
  | .io _ | .cancelled => none

/-- The input or output failure behind a failure. -/
def DigestError.cause? : DigestError → Option IoError
  | .io cause | .read _ cause => some cause
  | _ => none

/-- Whether content or a directory could not be read. -/
def DigestError.isIo (e : DigestError) : Bool := e.cause?.isSome

/-- Whether the run was called off. -/
def DigestError.isCancelled (e : DigestError) : Bool := e == .cancelled

end DirDigest
