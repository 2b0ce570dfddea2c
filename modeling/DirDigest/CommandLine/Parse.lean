import DirDigest.CommandLine.Request

/-! # Reading command lines

The arguments of a scope are read one by one. The latest value or operand is held back until the
next switch or operand comes, or the scope ends: only then it is checked.

* `ScopeState`, `Held`: what has been read of a scope, and what is held back.
* `ScopeState.settle`: checks what is held back.
* `readScope`: reads the arguments of a scope, up to a command.
* `Request.ofArguments`: what a command line asks for.
-/

set_option autoImplicit false

namespace DirDigest

/-- What is held back: a switch whose value is due or has just come, or an operand. -/
inductive Held
  | value (s : Switch) (value : Option Bytes)
  | operand (o : Operand) (value : Bytes)

/-- What has been read of a scope. -/
structure ScopeState where
  /-- The switches that were given, in this order. -/
  given : List Switch := []
  ignored : List String := []
  ignoreFile : Option Path := none
  archiveExtensions : List String := []
  operands : List Path := []
  held : Option Held := none

/-- Why reading ends before the arguments do. -/
inductive Halt
  | answer (text : String)
  | refuse (e : UsageError)

namespace ScopeState

/-! ## Switches and values -/

/-- The state with one more switch. -/
def give (r : ScopeState) (s : Switch) : Except UsageError ScopeState :=
  if !s.repeatable && r.given.contains s then .error (.repeated s)
  else .ok { r with given := r.given ++ [s] }

/-- The text of a value. -/
def textValue (value : Bytes) : Except UsageError String :=
  match value.text? with
  | some text => .ok text
  | none => .error .invalidText

/-- The path in a value, which must not be empty. -/
def pathValue (name : String) (value : Bytes) : Except UsageError Path :=
  if value.isEmpty then .error (.missingValue name) else .ok ⟨value⟩

/-- The state with the value of a switch. -/
def store (r : ScopeState) (s : Switch) (value : Bytes) : Except UsageError ScopeState := do
  let r ← r.give s
  match s with
  | .ignore => return { r with ignored := r.ignored ++ [← textValue value] }
  | .archiveExtension =>
    return { r with archiveExtensions := r.archiveExtensions ++ [← textValue value] }
  | .ignoreFile => return { r with ignoreFile := some (← pathValue s.spelling value) }
  | _ => return r

/-- The state with nothing held back. -/
def settle (r : ScopeState) : Except UsageError ScopeState :=
  let free := { r with held := none }
  match r.held with
  | none => .ok r
  | some (.value s none) => .error (.missingValue s.spelling)
  | some (.value s (some value)) => free.store s value
  | some (.operand o value) =>
    (pathValue o.spelling value).map fun path => { free with operands := r.operands ++ [path] }

/-- The state with a switch that takes no value; the switches that ask for a text end it. -/
def flag (scope : Scope) (r : ScopeState) (s : Switch) : Except Halt ScopeState := do
  let r ← r.settle.mapError .refuse
  match s with
  | .help => .error (.answer scope.help)
  | .version => .error (.answer scope.version)
  | _ => (r.give s).mapError .refuse

/-- The state with a switch and the value attached to it. -/
def attach (r : ScopeState) (s : Switch) (value : Bytes) : Except Halt ScopeState :=
  (do (← r.settle).store s value : Except UsageError ScopeState).mapError .refuse

/-- The state that waits for the value of a switch. -/
def await (r : ScopeState) (s : Switch) : Except Halt ScopeState :=
  (r.settle.map fun r => { r with held := some (.value s none) }).mapError .refuse

/-! ## Arguments -/

/-- The byte `-`. -/
def hyphen : UInt8 := 0x2D

/-- The byte `=`. -/
def equals : UInt8 := 0x3D

/-- A long switch, without its hyphens. -/
def long (scope : Scope) (r : ScopeState) (text : Bytes) : Except Halt ScopeState :=
  let name := text.takeWhile (· != equals)
  match scope.ofLong? name, text.drop name.length with
  | none, _ => .error (.refuse (.unknownArgument (Bytes.lossy (hyphen :: hyphen :: name))))
  | some s, [] => if s.valueName?.isSome then r.await s else r.flag scope s
  | some s, _ :: value =>
    if s.valueName?.isSome then r.attach s value
    else .error (.refuse (.unexpectedValue (Bytes.lossy value) s))

/-- The text of a switch that is written with one hyphen. -/
def shortText (rest : List Char) : String := String.ofList ('-' :: rest)

/-- Short switches, without their hyphen: the letters, and the bytes after them that are no
text. -/
def short (scope : Scope) (r : ScopeState) : List Char → (tail : Bytes) → Except Halt ScopeState
  | [], [] => .ok r
  | [], tail => .error (.refuse (.unknownArgument (shortText tail.lossy.toList)))
  | letter :: rest, tail =>
    match scope.ofShort? letter with
    | none => .error (.refuse (.unknownArgument (shortText [letter])))
    | some s =>
      if s.valueName?.isNone then do
        let r ← r.flag scope s
        r.short scope rest tail
      else
        match utf8 (String.ofList rest) ++ tail with
        | [] => r.await s
        | first :: value => r.attach s (if first = equals then value else first :: value)

/-- The operand that the next free argument is. -/
def nextOperand? (scope : Scope) (r : ScopeState) : Option Operand :=
  let count := match r.held with
    | some (.operand _ _) => r.operands.length + 1
    | _ => r.operands.length
  scope.operands[count]?

/-- Why a free argument that is no operand is refused. After `--` a command is not expected. -/
def surplus (scope : Scope) (literal : Bool) (argument : Bytes) : UsageError :=
  if scope = .program ∧
      !(literal && ((Scope.ofWord? argument).isSome || argument == utf8 helpWord)) then
    .unknownCommand argument.lossy
  else .unknownArgument argument.lossy

/-- The state with a free argument. -/
def operand (scope : Scope) (literal : Bool) (r : ScopeState) (argument : Bytes) :
    Except Halt ScopeState :=
  match r.nextOperand? scope with
  | none => .error (.refuse (surplus scope literal argument))
  | some o =>
    (r.settle.map fun r => { r with held := some (.operand o argument) }).mapError .refuse

/-- The longest beginning of a byte string that is a text, and what follows it; `size` bounds the
length of the beginning. -/
def splitText (bytes : Bytes) : (size : Nat) → List Char × Bytes
  | 0 => ([], bytes)
  | size + 1 =>
    match Bytes.text? (bytes.take (size + 1)) with
    | some text => (text.toList, bytes.drop (size + 1))
    | none => splitText bytes size

/-- The state with one argument that is no command. -/
def argument (scope : Scope) (r : ScopeState) (a : Bytes) : Except Halt ScopeState :=
  match a with
  | 0x2D :: 0x2D :: c :: name => r.long scope (c :: name)
  | 0x2D :: c :: letters =>
    let (text, tail) := splitText (c :: letters) (c :: letters).length
    r.short scope text tail
  | _ =>
    match r.held with
    | some (.value s none) => .ok { r with held := some (.value s (some a)) }
    | _ => r.operand scope false a

/-! ## The end of a scope -/

/-- The two switches of a state that exclude each other, the one given first in front. -/
def conflict? (r : ScopeState) : Option (Switch × Switch) :=
  match r.given.filter fun s => s == .quiet || s == .verbose with
  | first :: second :: _ => some (first, second)
  | _ => none

/-- The state at the end of its scope. -/
def finish (scope : Scope) (r : ScopeState) : Except UsageError ScopeState := do
  let r ← r.settle
  match r.conflict? with
  | some (first, second) => throw (.conflict first second)
  | none =>
    if r.operands.length < scope.operands.length then throw .missingOperands
    return r

/-- The common switches of a state. -/
def common (r : ScopeState) : CommonSwitches where
  verbose := r.given.contains .verbose
  quiet := r.given.contains .quiet
  json := r.given.contains .json

/-- The tree options of a state. -/
def treeOptions (r : ScopeState) : TreeOptions where
  ignored := r.ignored
  ignoreFile := r.ignoreFile
  followLinks := r.given.contains .followLinks
  archiveExtensions := r.archiveExtensions

/-- The command that the state at the end of its scope makes up. -/
def command? (r : ScopeState) : Scope → Option Command
  | .program => none
  | .digest => r.operands[0]?.map fun root => .digest root r.treeOptions
  | .file => r.operands[0]?.map fun path => .file path r.archiveExtensions
  | .diff =>
    match r.operands with
    | [old, new] => some (.diff old new (r.given.contains .exitCode) r.treeOptions)
    | _ => none

end ScopeState

/-! ## Scopes -/

/-- Where the arguments of a scope end. -/
inductive ScopeEnd
  | done
  | command (c : Scope) (rest : List Bytes)
  | help (rest : List Bytes)

/-- The arguments after `--`, which are operands whatever they look like. -/
def readLiterals (scope : Scope) : List Bytes → ScopeState → Except Halt ScopeState
  | [], r => .ok r
  | a :: rest, r => do readLiterals scope rest (← r.operand scope true a)

/-- The arguments of a scope, up to a command. -/
def readScope (scope : Scope) : List Bytes → ScopeState → Except Halt (ScopeState × ScopeEnd)
  | [], r => .ok (r, .done)
  | a :: rest, r =>
    if a = [ScopeState.hyphen, ScopeState.hyphen] then
      (readLiterals scope rest r).map fun r => (r, .done)
    else
      match (if scope = .program then Scope.ofWord? a else none) with
      | some c => .ok (r, .command c rest)
      | none =>
        if scope = .program ∧ a = utf8 helpWord then .ok (r, .help rest)
        else do readScope scope rest (← r.argument scope a)

/-- The help text that the words after `help` ask for. -/
def helpFor : List Bytes → Except UsageError String
  | [] => .ok Scope.program.help
  | word :: rest =>
    let found := match Scope.ofWord? word with
      | some c => some c.help
      | none => if word = utf8 helpWord then some helpOnHelp else none
    match found, rest with
    | none, _ => .error (.unknownCommand word.lossy)
    | some text, [] => .ok text
    | some _, extra :: _ => .error (.unknownCommand extra.lossy)

/-- The common switches given before or after a command. -/
def CommonSwitches.either (a b : CommonSwitches) : CommonSwitches :=
  ⟨a.verbose || b.verbose, a.quiet || b.quiet, a.json || b.json⟩

/-- The arguments of a command, and the end of the program's own ones. -/
def readCommand (outer : ScopeState) (scope : Scope) (arguments : List Bytes) :
    Except Halt Invocation := do
  let (inner, _) ← readScope scope arguments {}
  let inner ← (inner.finish scope).mapError .refuse
  let outer ← (outer.finish .program).mapError .refuse
  match inner.command? scope with
  | some command => return ⟨outer.common.either inner.common, command⟩
  | none => throw (.refuse .missingOperands)

/-- All arguments of a command line. -/
def readArguments (arguments : List Bytes) : Except Halt Invocation := do
  match ← readScope .program arguments {} with
  | (r, .done) =>
    let r ← r.settle.mapError .refuse
    throw (.refuse (if r.given.isEmpty then .nothingGiven else .missingCommand))
  | (_, .help words) =>
    match helpFor words with
    | .ok text => throw (.answer text)
    | .error e => throw (.refuse e)
  | (r, .command scope rest) => readCommand r scope rest

/-- What a command line asks for. -/
def Request.ofArguments (arguments : List Bytes) : Except UsageError Request :=
  match readArguments arguments with
  | .ok i => .ok (.run i)
  | .error (.answer text) => .ok (.print text)
  | .error (.refuse e) => .error e

end DirDigest
