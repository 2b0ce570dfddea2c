import DirDigest.Event
import DirDigest.Text

/-! # Log filters

A filter is a list of directives separated by commas. A directive is a level, or the leading part
of a target with a level; for an event, the directive with the longest fitting target decides. A
directive may also ask for a span in brackets, which no event has, or for a field in braces.

* `Directive`, `Directive.ofText?`: a directive and its text.
* `LogFilter.ofText?`, `LogFilter.allows`: a filter, and the events that it lets through.
-/

set_option autoImplicit false

namespace DirDigest

/-- One rule of a filter: the events that it is about and the rank up to which it lets them
through. -/
structure Directive where
  target : Option String := none
  field : Option String := none
  /-- Whether the rule is about events inside a span only. -/
  inSpan : Bool := false
  rank : Nat
  deriving DecidableEq, Repr

/-! ## Reading -/

/-- The rank that lets everything through. -/
def fullRank : Nat := Level.trace.rank

/-- The number that decimal digits write, after an optional plus sign. -/
def numberOfDigits? (text : List Char) : Option Nat :=
  let digits := if text.head? = some '+' then text.tail else text
  if digits ≠ [] ∧ digits.all Char.isDigit then
    some (digits.foldl (fun n c => 10 * n + (c.toNat - '0'.toNat)) 0)
  else none

/-- The rank that a level name or number stands for. -/
def rankOfName? (name : List Char) : Option Nat :=
  match String.ofList (name.map Char.toLower) with
  | "off" => some 0
  | "error" => some Level.error.rank
  | "warn" => some Level.warn.rank
  | "info" => some Level.info.rank
  | "debug" => some Level.debug.rank
  | "trace" => some Level.trace.rank
  | _ => (numberOfDigits? name).filter (· ≤ fullRank)

/-- Whether a directive can start with a character. -/
def startsTarget (c : Char) : Bool :=
  c.isAlphanum || c == '_' || c == ':' || c == '-' || 0x80 ≤ c.toNat

/-- Whether a character ends a target. -/
def endsTarget (c : Char) : Bool := c == '=' || c == '['

/-- A directive about everything, completed by the level at the end of its text: without a level it
lets everything through. -/
def Directive.complete? (d : Directive) : List Char → Option Directive
  | [] => some d
  | '=' :: [] => some d
  | '=' :: level => (rankOfName? level).map fun rank => { d with rank := rank }
  | _ => none

/-- A directive completed by what follows an opening bracket. -/
def Directive.completeSpan? (d : Directive) (text : List Char) : Option Directive :=
  let name := text.takeWhile fun c => c != ']' && c != '\x7b'
  match text.drop name.length with
  | ']' :: rest => { d with inSpan := true }.complete? rest
  | _ :: inner =>
    let field := inner.takeWhile (· != '\x7d')
    match inner.drop field.length with
    | _ :: ']' :: rest =>
      if field = [] then none
      else
        { d with
          inSpan := !name.isEmpty || field.contains '='
          field := some (String.ofList field) }.complete? rest
    | _ => none
  | [] => none

/-- The directive that a text writes. -/
def Directive.ofText? (text : List Char) : Option Directive :=
  let everything : Directive := { rank := fullRank }
  match trimBlank text with
  | [] => none
  | '[' :: rest => everything.completeSpan? rest
  | c :: rest =>
    if !startsTarget c then none
    else
      let target := (c :: rest).takeWhile fun c => !endsTarget c
      let about := { everything with target := some (String.ofList target) }
      match (c :: rest).drop target.length with
      | '[' :: rest => about.completeSpan? rest
      | [] =>
        match rankOfName? target with
        | some rank => some { rank := rank }
        | none => some about
      | rest => about.complete? rest

/-- A filter: its directives in the order in which they are written. -/
structure LogFilter where
  directives : List Directive
  deriving DecidableEq, Repr

/-- The pieces of a text between commas. -/
def betweenCommas : List Char → List (List Char)
  | [] => [[]]
  | c :: rest =>
    if c = ',' then [] :: betweenCommas rest
    else
      match betweenCommas rest with
      | [] => [[c]]
      | piece :: pieces => (c :: piece) :: pieces

/-- The filter that lets events through up to a level. -/
def LogFilter.upTo (level : Level) : LogFilter := ⟨[{ rank := level.rank }]⟩

/-- The filter that a text writes. Without a directive it lets errors through. -/
def LogFilter.ofText? (text : String) : Option LogFilter :=
  match ((betweenCommas text.toList).filter fun piece => !piece.isEmpty).mapM
      Directive.ofText? with
  | none => none
  | some [] => some (.upTo .error)
  | some directives => some ⟨directives⟩

/-! ## Filtering -/

/-- Whether a directive is about an event. -/
def Directive.isAbout (d : Directive) (e : Event) : Bool :=
  !d.inSpan &&
    (match d.target with
      | none => true
      | some target => target.toList.isPrefixOf e.target.toList) &&
    match d.field with
      | none => true
      | some field => field == "message" || (e.fields.map Prod.fst).contains field

/-- How closely a directive fits: by the length of its target, then by its field. -/
def Directive.weight (d : Directive) : Nat :=
  2 * (match d.target with
    | none => 0
    | some target => target.length + 1) + if d.field.isSome then 1 else 0

/-- The closer of two directives, the later one if they fit equally. -/
def closer (best : Option Directive) (d : Directive) : Option Directive :=
  match best with
  | none => some d
  | some b => if d.weight < b.weight then some b else some d

/-- Whether a filter lets an event through. -/
def LogFilter.allows (f : LogFilter) (e : Event) : Bool :=
  match (f.directives.filter (·.isAbout e)).foldl closer none with
  | some d => decide (e.level.rank ≤ d.rank)
  | none => false

end DirDigest
