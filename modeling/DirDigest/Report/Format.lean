import DirDigest.Report.Human
import DirDigest.Report.Machine

/-! # Report formats

A report is written to be read or to be processed: `Format.map`, `Format.file`, `Format.diff` and
`Format.warning` give its text, every line with its end.
-/

set_option autoImplicit false

namespace DirDigest

/-- How reports are written. -/
inductive Format
  | human (style : Style)
  | machine

/-- Lines with their ends. -/
def textOfLines (lines : List String) : String := String.join (lines.map (· ++ "\n"))

/-- A report to process, over several lines. -/
def Json.indented (j : Json) : String := String.ofList (j.pretty 0) ++ "\n"

namespace Format

/-- The report of a digest map. -/
def map (f : Format) (root : Path) (m : DigestMap) : String :=
  match f with
  | human style => textOfLines (style.mapLines root m)
  | machine => (mapReport root m).indented

/-- The report of the digest of a file. -/
def file (f : Format) (path : Path) (d : Digest) : String :=
  match f with
  | human _ => textOfLines [Style.fileLine path d]
  | machine => (fileReport path d).indented

/-- The report of the difference of two trees. -/
def diff (f : Format) (old new : Path) (d : Difference) : String :=
  match f with
  | human style => textOfLines (style.diffLines old new d)
  | machine => (diffReport old new d).indented

/-- A warning. -/
def warning (f : Format) (message : String) : String :=
  match f with
  | human style => textOfLines (style.warningLine? message).toList
  | machine => String.ofList (warningReport message).compact ++ "\n"

end Format

end DirDigest
