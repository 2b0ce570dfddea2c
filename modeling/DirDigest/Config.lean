import DirDigest.Path
import DirDigest.Reading

/-! # Configuration

Which files are archives, how much is read at once, and whether linked directories are entered.

* `Config`: the settings and their defaults.
* `Config.isArchiveName`: whether the name of a path makes it an archive.
-/

set_option autoImplicit false

namespace DirDigest

/-- The settings of a digest run. -/
structure Config where
  archiveExtensions : List String := ["zip", "jar"]
  bufferSize : Nat := defaultBufferSize
  followLinks : Bool := false
  deriving DecidableEq, Repr

/-- The size of the read buffer, which is never empty. -/
def Config.chunkSize (c : Config) : Nat := max c.bufferSize 1

/-- Whether two texts agree up to the case of ASCII letters. -/
def sameLetters (s t : List Char) : Bool := s.map Char.toLower == t.map Char.toLower

/-- Whether a configured extension, without its leading dots, is the extension `ext`. -/
def extensionMatches (ext known : String) : Bool :=
  sameLetters (known.toList.dropWhile (· == '.')) ext.toList

/-- Whether a path carries one of the archive extensions. -/
def Config.isArchiveName (c : Config) (p : Path) : Bool :=
  match p.extension?.bind Bytes.text? with
  | some ext => c.archiveExtensions.any (extensionMatches ext)
  | none => false

end DirDigest
