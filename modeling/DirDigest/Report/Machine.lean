import DirDigest.Difference
import DirDigest.Path
import DirDigest.Report.Json
import DirDigest.Report.Numeral

/-! # Reports to process

* `successReport`: a report, with the operation that it is about and its data.
* `mapReport`, `fileReport`, `diffReport`: the reports of a digest map, of the digest of a file,
  and of the difference of two trees.
* `warningReport`: a warning.
-/

set_option autoImplicit false

namespace DirDigest

/-- A digest as a number. -/
def digestNumber (d : Digest) : Json := .number d.toNat

/-- A digest as hexadecimal digits. -/
def digestText (d : Digest) : Json := .text (hexDigest d)

/-- A path as a text. -/
def pathText (p : Path) : Json := .text p.display

/-- A report of an operation that succeeded. -/
def successReport (operation : String) (data : Json) : Json :=
  .object [("operation", .text operation), ("status", .text "success"), ("data", data)]

/-- The report of a digest map. -/
def mapReport (root : Path) (m : DigestMap) : Json :=
  successReport "digest" (.object
    [("root", pathText root),
      ("entries", .number m.size),
      ("digests", .object (m.entries.map fun e => (e.1, digestNumber e.2)))])

/-- The report of the digest of a file. -/
def fileReport (path : Path) (d : Digest) : Json :=
  successReport "file" (.object
    [("path", pathText path), ("digest", digestNumber d), ("hex", digestText d)])

/-- A change in a report. -/
def changeReport (c : Change) : Json :=
  .object
    [("path", .text c.path),
      ("old", digestNumber c.old),
      ("new", digestNumber c.new),
      ("old_hex", digestText c.old),
      ("new_hex", digestText c.new)]

/-- The report of the difference of two trees. -/
def diffReport (old new : Path) (d : Difference) : Json :=
  successReport "diff" (.object
    [("old_root", pathText old),
      ("new_root", pathText new),
      ("identical", .bool d.isEmpty),
      ("added", .list (d.added.map Json.text)),
      ("removed", .list (d.removed.map Json.text)),
      ("changed", .list (d.changed.map changeReport)),
      ("unchanged", .number d.unchanged)])

/-- A warning. -/
def warningReport (message : String) : Json :=
  .object
    [("operation", .text "warning"), ("status", .text "warning"), ("error", .text message)]

end DirDigest
