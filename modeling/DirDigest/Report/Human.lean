import DirDigest.Difference
import DirDigest.Path
import DirDigest.Report.Numeral

/-! # Reports to read

* `Style`: how much is written, and whether in colours.
* `Style.mapLines`, `Style.fileLine`, `Style.diffLines`: the lines of a digest map, of the digest
  of a file, and of the difference of two trees.
* `Style.warningLine?`: the line of a warning, if it is written.
-/

set_option autoImplicit false

namespace DirDigest

/-- How a report is written. -/
structure Style where
  verbose : Bool := false
  quiet : Bool := false
  colors : Bool := false
  deriving DecidableEq, Repr

namespace Style

/-! ## Marks -/

/-- A colour of a terminal. -/
inductive Color
  | red
  | green
  | yellow
  deriving DecidableEq, Repr

/-- The number of a colour. -/
def Color.code : Color → String
  | .red => "31"
  | .green => "32"
  | .yellow => "33"

/-- A text in bold letters of a colour. -/
def painted (c : Color) (s : String) : String :=
  "\x1b[" ++ c.code ++ "m\x1b[1m" ++ s ++ "\x1b[0m"

/-- How a key differs. -/
inductive Mark
  | added
  | removed
  | changed
  deriving DecidableEq, Repr

/-- The sign of a mark. -/
def Mark.sign : Mark → String
  | .added => "+"
  | .removed => "-"
  | .changed => "~"

/-- The colour of a mark. -/
def Mark.color : Mark → Color
  | .added => .green
  | .removed => .red
  | .changed => .yellow

/-- A text, in colour if the style has colours. -/
def paint (style : Style) (c : Color) (s : String) : String :=
  if style.colors then painted c s else s

/-- A marked line. -/
def marked (style : Style) (m : Mark) (text : String) : String :=
  style.paint m.color m.sign ++ " " ++ text

/-! ## Lines -/

/-- The line of a digest. -/
def digestLine (d : Digest) (path : String) : String := hexDigest d ++ "  " ++ path

/-- The number of keys whose digest is that of a directory. -/
def zeroCount (m : DigestMap) : Nat := m.entries.countP fun e => e.2 == directoryDigest

/-- The lines of a digest map. -/
def mapLines (style : Style) (root : Path) (m : DigestMap) : List String :=
  (m.entries.map fun e => digestLine e.2 e.1) ++
    if style.verbose && !style.quiet then
      ["", "  Root: " ++ root.display,
        "  Entries: " ++ grouped m.size ++ " (" ++ grouped (zeroCount m) ++ " with digest 0)"]
    else []

/-- The line of the digest of a file. -/
def fileLine (path : Path) (d : Digest) : String := digestLine d path.display

/-- What is written of a change. -/
def changeText (style : Style) (c : Change) : String :=
  if style.verbose then c.path ++ " (" ++ hexDigest c.old ++ " -> " ++ hexDigest c.new ++ ")"
  else c.path

/-- The head of the summary of a difference. -/
def diffHead (style : Style) (old new : Path) (d : Difference) : String :=
  if d.isEmpty then
    (if style.colors then painted .green "✓" ++ " " else "") ++
      "No differences between " ++ old.display ++ " and " ++ new.display
  else ""

/-- The summary of a difference in numbers. -/
def diffCounts (d : Difference) : String :=
  "  " ++ grouped d.added.length ++ " added, " ++ grouped d.removed.length ++ " removed, " ++
    grouped d.changed.length ++ " changed, " ++ grouped d.unchanged ++ " unchanged"

/-- The lines of the difference of two trees. -/
def diffLines (style : Style) (old new : Path) (d : Difference) : List String :=
  d.added.map (style.marked .added) ++ d.removed.map (style.marked .removed) ++
    (d.changed.map fun c => style.marked .changed (style.changeText c)) ++
    if style.quiet then [] else [style.diffHead old new d, diffCounts d]

/-- The line of a warning, which a quiet report leaves out. -/
def warningLine? (style : Style) (message : String) : Option String :=
  if style.quiet then none
  else if style.colors then some (painted .yellow "⚠" ++ " " ++ message)
  else some ("Warning: " ++ message)

end Style

end DirDigest
