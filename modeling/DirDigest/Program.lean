import DirDigest.CommandLine.Parse
import DirDigest.CommandRun
import DirDigest.LogFilter

/-! # The program

The program reads its command line, runs the command on a file tree, and leaves a transcript: an
exit code and two texts.

* `Environment`: the variables that the program looks at.
* `logFilter`, `format`: the events that are logged, and the format of reports.
* `Transcript`, `runProgram`: the run of a command line.
-/

set_option autoImplicit false

namespace DirDigest

/-- Variables with their values. -/
abbrev Environment := List (String × String)

/-- The variable with the log filter. -/
def logVariable : String := "TREEDIGEST_LOG"

/-- The variable that asks for colours. -/
def colorVariable : String := "CLICOLOR_FORCE"

/-- What a run leaves: its exit code, its output and what it wrote beside it. -/
structure Transcript where
  code : Nat
  out : String := ""
  err : String := ""
  deriving DecidableEq, Repr

/-- The failure text with its cause. -/
def failureText (message : String) (cause : Option String) : String :=
  "Error: " ++ message ++ "\n" ++
    match cause with
    | some cause => "\nCaused by:\n    " ++ cause ++ "\n"
    | none => ""

/-- The level up to which events are logged if no filter is given. -/
def CommonSwitches.level (s : CommonSwitches) : Level :=
  if s.verbose then .debug else if s.quiet then .error else .warn

/-- The filter of logged events, or the text of a filter that cannot be read. -/
def logFilter (env : Environment) (s : CommonSwitches) : Except String LogFilter :=
  match env.lookup logVariable with
  | none => .ok (.upTo s.level)
  | some text =>
    match LogFilter.ofText? text with
    | some filter => .ok filter
    | none => .error text

/-- Whether reports have colours. -/
def wantsColors (env : Environment) : Bool :=
  match env.lookup colorVariable with
  | some value => value != "0"
  | none => false

/-- The format of reports. -/
def format (env : Environment) (s : CommonSwitches) : Format :=
  if s.json then .machine
  else .human { verbose := s.verbose, quiet := s.quiet, colors := wantsColors env }

/-- What is written of a notice. -/
def noticeText (filter : LogFilter) : Notice → String
  | .event e => if filter.allows e then e.line ++ "\n" else ""
  | .warning text => text

/-- The transcript of a command run. -/
def CommandRun.transcript (filter : LogFilter) (run : CommandRun) : Transcript where
  code := if run.failure.isSome then 1 else 0
  out := run.report
  err := String.join (run.notices.map (noticeText filter)) ++
    match run.failure with
    | some failure => failureText failure.message failure.cause?
    | none => ""

/-- Runs an invocation. -/
def Invocation.run (env : Environment) (t : FileTree) (i : Invocation) : Transcript :=
  match logFilter env i.common with
  | .error text =>
    { code := 1
      err := failureText ("invalid " ++ logVariable ++ " value: " ++ text)
        (some "invalid filter directive") }
  | .ok filter => (i.command.run t (format env i.common)).transcript filter

/-- Runs a command line. -/
def runProgram (env : Environment) (arguments : List Bytes) (t : FileTree) : Transcript :=
  match Request.ofArguments arguments with
  | .error e => { code := 2, err := e.message }
  | .ok (.print text) => { code := 0, out := text }
  | .ok (.run i) => i.run env t

end DirDigest
