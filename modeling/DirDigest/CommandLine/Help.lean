import DirDigest.CommandLine.Grammar

/-! # Help texts

* `Scope.help`: the help text of the program or a command.
* `helpOnHelp`: the help text of the command that prints help.
* `Scope.version`: the line with the version.
-/

set_option autoImplicit false

namespace DirDigest

/-- The word for the command that prints help. -/
def helpWord : String := "help"

/-- What the command that prints help is for. -/
def helpSummary : String := "Print this message or the help of the given subcommand(s)"

/-- A text filled with blanks up to a width. -/
def padded (width : Nat) (s : String) : String :=
  s ++ String.ofList (List.replicate (width - s.length) ' ')

/-- Terms with their summaries, one on a line, the summaries in one column. -/
def columns (rows : List (String × String)) : String :=
  let width := (rows.map fun r => r.1.length).foldl max 0
  String.join (rows.map fun r => "  " ++ padded width r.1 ++ "  " ++ r.2 ++ "\n")

/-- A titled part of a help text, left out if it has no rows. -/
def helpPart (title : String) (rows : List (String × String)) : String :=
  if rows.isEmpty then "" else "\n" ++ title ++ ":\n" ++ columns rows

/-- The row of a switch. -/
def Switch.row (s : Switch) : String × String :=
  ((match s.short? with
    | some letter => "-" ++ letter.toString ++ ", "
    | none => "    ") ++ s.spelling, s.summary)

namespace Scope

/-- The words with which a scope is entered. -/
def path : Scope → String
  | program => programName
  | command => programName ++ " " ++ command.word

/-- The line that shows how a scope is used. -/
def usage (s : Scope) : String :=
  "Usage: " ++ s.path ++ " [OPTIONS]" ++
    (if s = program then " <COMMAND>" else "") ++
    String.join (s.operands.map fun o => " " ++ o.spelling)

/-- The rows of the commands in a scope. -/
def commandRows : Scope → List (String × String)
  | program => (commands.map fun c => (c.word, c.summary)) ++ [(helpWord, helpSummary)]
  | _ => []

/-- The help text of a scope. -/
def help (s : Scope) : String :=
  s.summary ++ "\n\n" ++ s.usage ++ "\n" ++
    helpPart "Commands" s.commandRows ++
    helpPart "Arguments" (s.operands.map fun o => (o.spelling, o.summary)) ++
    helpPart "Options" (s.switches.map Switch.row)

/-- The line with the version of a scope. -/
def version (s : Scope) : String :=
  (match s with
    | program => programName
    | command => programName ++ "-" ++ command.word) ++ " " ++ versionNumber ++ "\n"

end Scope

/-- The help text of the command that prints help. -/
def helpOnHelp : String :=
  helpSummary ++ "\n\nUsage: " ++ Scope.programName ++ " " ++ helpWord ++ " [COMMAND]...\n" ++
    helpPart "Arguments" [("[COMMAND]...", "Print help for the subcommand(s)")]

end DirDigest
