/-! # JSON texts

* `Json`: the values that are written.
* `Json.compact`, `Json.pretty`: a value on one line, and indented by two blanks a level.
* `quoted`: a text between quotes; quotes, backslashes and control characters are escaped.
-/

set_option autoImplicit false

namespace DirDigest

/-- A JSON value. Members of an object keep their order. -/
inductive Json
  | bool (b : Bool)
  | number (n : Nat)
  | text (s : String)
  | list (items : List Json)
  | object (members : List (String × Json))

namespace Json

/-! ## Texts -/

/-- The escaped form of a character. -/
def escape (c : Char) : List Char :=
  if c = '"' then ['\\', '"']
  else if c = '\\' then ['\\', '\\']
  else if c = '\n' then ['\\', 'n']
  else if c = '\r' then ['\\', 'r']
  else if c = '\t' then ['\\', 't']
  else if c.toNat = 8 then ['\\', 'b']
  else if c.toNat = 12 then ['\\', 'f']
  else if c.toNat < 32 then
    ['\\', 'u', '0', '0', Nat.digitChar (c.toNat / 16), Nat.digitChar (c.toNat % 16)]
  else [c]

/-- A text between quotes. -/
def quoted (s : String) : List Char := '"' :: s.toList.flatMap escape ++ ['"']

/-- The decimal digits of a number. -/
def digits (n : Nat) : List Char := Nat.toDigits 10 n

/-- The text of a truth value. -/
def boolText (b : Bool) : List Char := (if b then "true" else "false").toList

/-! ## On one line -/

mutual

/-- A value on one line. -/
def compact : Json → List Char
  | .bool b => boolText b
  | .number n => digits n
  | .text s => quoted s
  | .list [] => ['[', ']']
  | .list (item :: items) => '[' :: item.compact ++ compactItems items ++ [']']
  | .object [] => ['{', '}']
  | .object ((key, value) :: members) =>
    '{' :: quoted key ++ ':' :: value.compact ++ compactMembers members ++ ['}']

/-- The items after the first one. -/
def compactItems : List Json → List Char
  | [] => []
  | item :: items => ',' :: item.compact ++ compactItems items

/-- The members after the first one. -/
def compactMembers : List (String × Json) → List Char
  | [] => []
  | (key, value) :: members =>
    ',' :: quoted key ++ ':' :: value.compact ++ compactMembers members

end

/-! ## Indented -/

/-- A new line at a level. -/
def newLine (level : Nat) : List Char := '\n' :: List.replicate (2 * level) ' '

mutual

/-- A value indented by two blanks a level. -/
def pretty (level : Nat) : Json → List Char
  | .bool b => boolText b
  | .number n => digits n
  | .text s => quoted s
  | .list [] => ['[', ']']
  | .list (item :: items) =>
    '[' :: newLine (level + 1) ++ item.pretty (level + 1) ++ prettyItems (level + 1) items ++
      newLine level ++ [']']
  | .object [] => ['{', '}']
  | .object ((key, value) :: members) =>
    '{' :: newLine (level + 1) ++ quoted key ++ ':' :: ' ' :: value.pretty (level + 1) ++
      prettyMembers (level + 1) members ++ newLine level ++ ['}']

/-- The items after the first one. -/
def prettyItems (level : Nat) : List Json → List Char
  | [] => []
  | item :: items => ',' :: newLine level ++ item.pretty level ++ prettyItems level items

/-- The members after the first one. -/
def prettyMembers (level : Nat) : List (String × Json) → List Char
  | [] => []
  | (key, value) :: members =>
    ',' :: newLine level ++ quoted key ++ ':' :: ' ' :: value.pretty level ++
      prettyMembers level members

end

end Json

end DirDigest
