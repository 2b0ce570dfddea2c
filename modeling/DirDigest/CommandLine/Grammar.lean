import DirDigest.Path

/-! # The grammar of command lines

A command line names a command, between switches and operands. Some switches take a value.

* `Switch`, with its spellings and its value; `Operand`.
* `Scope`: the program or one of its commands, with the switches and operands that stand in it.
-/

set_option autoImplicit false

namespace DirDigest

/-! ## Switches -/

/-- A switch. -/
inductive Switch
  | verbose | quiet | json | help | version
  | ignore | ignoreFile | followLinks | archiveExtension | exitCode
  deriving DecidableEq, Repr

namespace Switch

/-- The name after two hyphens. -/
def long : Switch → String
  | verbose => "verbose"
  | quiet => "quiet"
  | json => "json"
  | help => "help"
  | version => "version"
  | ignore => "ignore"
  | ignoreFile => "ignore-file"
  | followLinks => "follow-symlinks"
  | archiveExtension => "archive-ext"
  | exitCode => "exit-code"

/-- The letter after one hyphen. -/
def short? : Switch → Option Char
  | verbose => some 'v'
  | quiet => some 'q'
  | json => some 'j'
  | help => some 'h'
  | version => some 'V'
  | ignore => some 'x'
  | _ => none

/-- The name of the value, for a switch that takes one. -/
def valueName? : Switch → Option String
  | ignore => some "PATH"
  | ignoreFile => some "FILE"
  | archiveExtension => some "EXT"
  | _ => none

/-- Whether a switch can be given more than once. -/
def repeatable : Switch → Bool
  | ignore | archiveExtension => true
  | _ => false

/-- What a switch is for. -/
def summary : Switch → String
  | verbose => "Enable verbose output and debug logging"
  | quiet => "Suppress non-error output"
  | json => "Output results in JSON format"
  | help => "Print help"
  | version => "Print version"
  | ignore => "Relative path to skip (can be repeated)"
  | ignoreFile => "File listing relative paths to skip, one per line"
  | followLinks => "Descend into symlinked directories"
  | archiveExtension => "Extension treated as a ZIP archive (can be repeated, replaces defaults)"
  | exitCode => "Exit with failure if the trees differ"

/-- The long spelling of a switch, with its value. -/
def spelling (s : Switch) : String :=
  "--" ++ s.long ++
    match s.valueName? with
    | some name => " <" ++ name ++ ">"
    | none => ""

end Switch

/-! ## Operands -/

/-- An operand, which is the path of something. -/
structure Operand where
  name : String
  summary : String
  deriving DecidableEq, Repr

/-- The spelling of an operand. -/
def Operand.spelling (o : Operand) : String := "<" ++ o.name ++ ">"

/-! ## Scopes -/

/-- The part of a command line before the command, or the part of a command. -/
inductive Scope
  | program
  | digest
  | file
  | diff
  deriving DecidableEq, Repr

namespace Scope

/-- The name of the program. -/
def programName : String := "treedigest"

/-- The version of the program. -/
def versionNumber : String := "0.1.0"

/-- The word for a command. -/
def word : Scope → String
  | program => programName
  | digest => "digest"
  | file => "file"
  | diff => "diff"

/-- The commands. -/
def commands : List Scope := [digest, file, diff]

/-- The command that a word stands for. -/
def ofWord? (word : Bytes) : Option Scope := commands.find? fun c => utf8 c.word == word

/-- What the program or a command is for. -/
def summary : Scope → String
  | program => "Command-line utility for digesting directory trees and diffing builds"
  | digest => "Digest every file and directory under a root"
  | file => "Digest a single file"
  | diff => "Compare the digests of two directory trees"

/-- The switches in a scope, in the order of its help text. -/
def switches : Scope → List Switch
  | program => [.verbose, .quiet, .json, .help, .version]
  | digest =>
    [.ignore, .ignoreFile, .followLinks, .archiveExtension, .verbose, .quiet, .json, .help,
      .version]
  | file => [.archiveExtension, .verbose, .quiet, .json, .help, .version]
  | diff =>
    [.exitCode, .ignore, .ignoreFile, .followLinks, .verbose, .archiveExtension, .quiet, .json,
      .help, .version]

/-- The operands in a scope. -/
def operands : Scope → List Operand
  | program => []
  | digest => [⟨"ROOT", "Root directory to digest"⟩]
  | file => [⟨"PATH", "Path of the file to digest"⟩]
  | diff =>
    [⟨"OLD_ROOT", "Root directory of the old build"⟩,
      ⟨"NEW_ROOT", "Root directory of the new build"⟩]

/-- The switch with a long name. -/
def ofLong? (s : Scope) (name : Bytes) : Option Switch :=
  s.switches.find? fun o => utf8 o.long == name

/-- The switch with a letter. -/
def ofShort? (s : Scope) (letter : Char) : Option Switch :=
  s.switches.find? fun o => o.short? == some letter

end Scope

end DirDigest
