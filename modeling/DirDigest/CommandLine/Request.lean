import DirDigest.CommandLine.Help

/-! # Requests

What a command line asks for, or why it asks for nothing.

* `Command`, `Invocation`: a command with its operands and options, and the common switches.
* `Request`: an invocation, or a text to print.
* `UsageError`, `UsageError.message`: what is wrong with a command line.
-/

set_option autoImplicit false

namespace DirDigest

/-- The switches that every command knows. -/
structure CommonSwitches where
  verbose : Bool := false
  quiet : Bool := false
  json : Bool := false
  deriving DecidableEq, Repr

/-- The options of a command that digests trees. -/
structure TreeOptions where
  ignored : List String := []
  ignoreFile : Option Path := none
  followLinks : Bool := false
  /-- The archive extensions; if there is none, the usual ones count. -/
  archiveExtensions : List String := []
  deriving DecidableEq, Repr

/-- A command. -/
inductive Command
  | digest (root : Path) (options : TreeOptions)
  | file (path : Path) (archiveExtensions : List String)
  | diff (old new : Path) (exitCode : Bool) (options : TreeOptions)
  deriving DecidableEq, Repr

/-- A command with the common switches. -/
structure Invocation where
  common : CommonSwitches
  command : Command
  deriving DecidableEq, Repr

/-- What a command line asks for. -/
inductive Request
  | run (i : Invocation)
  | print (text : String)
  deriving DecidableEq, Repr

/-- What is wrong with a command line. -/
inductive UsageError
  | nothingGiven
  | missingCommand
  | missingOperands
  | missingValue (of : String)
  | repeated (s : Switch)
  | conflict (first second : Switch)
  | unknownArgument (argument : String)
  | unknownCommand (word : String)
  | unexpectedValue (value : String) (s : Switch)
  | invalidText
  deriving DecidableEq, Repr

/-- A text between quotes. -/
def inQuotes (s : String) : String := "'" ++ s ++ "'"

/-- What is said about a wrong command line. -/
def UsageError.message : UsageError → String
  | .nothingGiven => Scope.program.help
  | .missingCommand =>
    "error: " ++ inQuotes Scope.programName ++ " requires a subcommand but one was not provided\n"
  | .missingOperands => "error: the following required arguments were not provided:\n"
  | .missingValue name =>
    "error: a value is required for " ++ inQuotes name ++ " but none was supplied\n"
  | .repeated s =>
    "error: the argument " ++ inQuotes s.spelling ++ " cannot be used multiple times\n"
  | .conflict first second =>
    "error: the argument " ++ inQuotes first.spelling ++ " cannot be used with " ++
      inQuotes second.spelling ++ "\n"
  | .unknownArgument argument => "error: unexpected argument " ++ inQuotes argument ++ " found\n"
  | .unknownCommand word => "error: unrecognized subcommand " ++ inQuotes word ++ "\n"
  | .unexpectedValue value s =>
    "error: unexpected value " ++ inQuotes value ++ " for " ++ inQuotes s.spelling ++
      " found; no more were expected\n"
  | .invalidText => "error: invalid UTF-8 was detected in one or more arguments\n"

end DirDigest
