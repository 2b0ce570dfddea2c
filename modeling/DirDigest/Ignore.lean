import DirDigest.Text

/-! # Ignored paths

Paths to leave out are given one by one or as the lines of a file, and are brought into the form of
keys: no white space at the ends, slashes for backslashes, no leading `./` and no trailing slash.

* `normalize`: the key form of a path that a user writes.
* `ignoreLines`: the paths in an ignore file; empty lines and lines that start with `#` do not
  count.
* `ignoreSet`: all ignored paths.
-/

set_option autoImplicit false

namespace DirDigest

/-- A text without the `./` at its start, however often it is repeated. -/
def dropHere : List Char → List Char
  | '.' :: '/' :: rest => dropHere rest
  | cs => cs

/-- A text with slashes for backslashes. -/
def forwardSlashes (cs : List Char) : List Char := cs.map fun c => if c = '\\' then '/' else c

/-- The key form of a path. -/
def normalizeChars (cs : List Char) : List Char :=
  trimEnd (· == '/') (dropHere (forwardSlashes (trimBlank cs)))

/-- The key form of a path. -/
def normalize (s : String) : String := String.ofList (normalizeChars s.toList)

/-- The lines of a text. A line ends in a line feed, with or without a carriage return before it;
the last one may lack its end. -/
def linesOf : List Char → List (List Char)
  | [] => []
  | c :: rest =>
    if c = '\n' then [] :: linesOf rest
    else if c = '\r' ∧ rest.head? = some '\n' then linesOf rest
    else
      match linesOf rest with
      | [] => [[c]]
      | line :: lines => (c :: line) :: lines

/-- Whether a trimmed line names a path. -/
def namesPath (line : List Char) : Bool := !line.isEmpty && line.head? != some '#'

/-- The paths in an ignore file. -/
def ignoreLines (content : String) : List String :=
  (((linesOf content.toList).map trimBlank).filter namesPath).map fun line =>
    String.ofList (normalizeChars line)

/-- The paths that are left out: those given one by one and those in an ignore file. -/
def ignoreSet (given : List String) (file : Option String) : List String :=
  given.map normalize ++ (file.map ignoreLines).getD []

end DirDigest
