import DirDigest.Path
import DirDigest.Report.Format
import DirDigest.Proofs.Report.Numeral

/-! # JSON texts read back

A reader of JSON texts, as far as their values are truth values, natural numbers, texts, lists and
objects.

* `readChar`: one character of a text between quotes, plain or escaped.
* `readValue`: a value, with spaces before it, and what follows the value.
* `Json.ofText?`: the value of a whole text.
* `readValue_pretty`: an indented value reads back, with anything behind it that does not continue
  a number.
* `Json.ofText?_indented`: the text of a report has exactly the value that was written.
-/

set_option autoImplicit false

namespace DirDigest

namespace Json

/-! ## Signs -/

/-- Whether a character may stand between the parts of a value. -/
def isSpace (c : Char) : Bool := c = ' ' || c = '\t' || c = '\n' || c = '\r'

/-- What follows leading spaces. -/
def skipSpaces (cs : List Char) : List Char := cs.dropWhile isSpace

/-- What follows a sign, if it comes first. -/
def afterSign? (sign : Char) : List Char → Option (List Char)
  | [] => none
  | c :: rest => if c = sign then some rest else none

/-! ## Texts -/

/-- The character that a letter or sign behind a backslash stands for. -/
def escaped? (c : Char) : Option Char :=
  if c = '"' ∨ c = '\\' ∨ c = '/' then some c
  else if c = 'b' then some (Char.ofNat 8)
  else if c = 'f' then some (Char.ofNat 12)
  else if c = 'n' then some '\n'
  else if c = 'r' then some '\r'
  else if c = 't' then some '\t'
  else none

/-- A number of four hexadecimal digits. -/
def readUnit : List Char → Option (Nat × List Char)
  | a :: b :: c :: d :: rest => (numberFrom? 16 0 [a, b, c, d]).map (·, rest)
  | _ => none

/-- The character of two numbers, of which the first one has been read. -/
def readPair (first : Nat) (cs : List Char) : Option (Char × List Char) := do
  let cs ← afterLeading? ['\\', 'u'] cs
  let (second, rest) ← readUnit cs
  if 0xDC00 ≤ second ∧ second ≤ 0xDFFF then
    some (Char.ofNat (0x10000 + (first - 0xD800) * 0x400 + (second - 0xDC00)), rest)
  else none

/-- A character given by its number, or by two numbers if it has more than sixteen bits. -/
def readNumbered (cs : List Char) : Option (Char × List Char) := do
  let (n, rest) ← readUnit cs
  if 0xD800 ≤ n ∧ n ≤ 0xDBFF then readPair n rest
  else if 0xDC00 ≤ n ∧ n ≤ 0xDFFF then none
  else some (Char.ofNat n, rest)

/-- The character that is written behind a backslash. -/
def readEscape : List Char → Option (Char × List Char)
  | [] => none
  | c :: rest => if c = 'u' then readNumbered rest else (escaped? c).map (·, rest)

/-- One character of a text, which is no quote. -/
def readChar : List Char → Option (Char × List Char)
  | [] => none
  | c :: rest =>
    if c = '\\' then readEscape rest
    else if c = '"' ∨ c.toNat < 32 then none
    else some (c, rest)

/-- The characters up to the closing quote; `bound` is at least their number and the quote. -/
def readChars : (bound : Nat) → List Char → Option (List Char × List Char)
  | 0, _ => none
  | bound + 1, cs =>
    match afterSign? '"' cs with
    | some rest => some ([], rest)
    | none => do
      let (c, rest) ← readChar cs
      let (chars, rest) ← readChars bound rest
      some (c :: chars, rest)

/-- A text in quotes. -/
def readText (cs : List Char) : Option (String × List Char) := do
  let cs ← afterSign? '"' (skipSpaces cs)
  let (chars, rest) ← readChars cs.length cs
  some (String.ofList chars, rest)

/-- The key of a member with the colon behind it. -/
def readKey (cs : List Char) : Option (String × List Char) := do
  let (key, rest) ← readText cs
  let rest ← afterSign? ':' (skipSpaces rest)
  some (key, rest)

/-! ## Numbers -/

/-- A number in decimal digits, without leading zeros. -/
def readNumber (cs : List Char) : Option (Nat × List Char) :=
  let ds := cs.takeWhile Char.isDigit
  if ds.head? = some '0' ∧ ds ≠ ['0'] then none
  else (number? 10 ds).map (·, cs.dropWhile Char.isDigit)

/-! ## Values -/

mutual

/-- A value and what follows it; `bound` is at least the length of the value's text. -/
def readValue : (bound : Nat) → List Char → Option (Json × List Char)
  | 0, _ => none
  | bound + 1, cs =>
    match skipSpaces cs with
    | [] => none
    | c :: rest =>
      if c = '"' then (readText (c :: rest)).map fun p => (.text p.1, p.2)
      else if c = 't' then (afterLeading? "rue".toList rest).map (.bool true, ·)
      else if c = 'f' then (afterLeading? "alse".toList rest).map (.bool false, ·)
      else if c = '[' then
        match afterSign? ']' (skipSpaces rest) with
        | some rest => some (.list [], rest)
        | none => do
          let (item, rest) ← readValue bound rest
          let (items, rest) ← readItems bound rest
          some (.list (item :: items), rest)
      else if c = '\x7b' then
        match afterSign? '\x7d' (skipSpaces rest) with
        | some rest => some (.object [], rest)
        | none => do
          let (key, rest) ← readKey rest
          let (value, rest) ← readValue bound rest
          let (members, rest) ← readMembers bound rest
          some (.object ((key, value) :: members), rest)
      else (readNumber (c :: rest)).map fun p => (.number p.1, p.2)

/-- The items of a list behind the first one, up to the closing bracket. -/
def readItems : (bound : Nat) → List Char → Option (List Json × List Char)
  | 0, _ => none
  | bound + 1, cs =>
    match afterSign? ']' (skipSpaces cs) with
    | some rest => some ([], rest)
    | none => do
      let rest ← afterSign? ',' (skipSpaces cs)
      let (item, rest) ← readValue bound rest
      let (items, rest) ← readItems bound rest
      some (item :: items, rest)

/-- The members of an object behind the first one, up to the closing brace. -/
def readMembers : (bound : Nat) → List Char → Option (List (String × Json) × List Char)
  | 0, _ => none
  | bound + 1, cs =>
    match afterSign? '\x7d' (skipSpaces cs) with
    | some rest => some ([], rest)
    | none => do
      let rest ← afterSign? ',' (skipSpaces cs)
      let (key, rest) ← readKey rest
      let (value, rest) ← readValue bound rest
      let (members, rest) ← readMembers bound rest
      some ((key, value) :: members, rest)

end

/-- The value that a text writes, if it writes one and nothing else. -/
def ofText? (s : String) : Option Json := do
  let (j, rest) ← readValue s.length s.toList
  if skipSpaces rest = [] then some j else none

/-! ## Signs read back -/

section Signs
variable {ws cs : List Char} {c sign : Char}

@[simp] theorem afterSign?_self : afterSign? sign (sign :: cs) = some cs := if_pos rfl

theorem afterSign?_ne (h : c ≠ sign) : afterSign? sign (c :: cs) = none := if_neg h

theorem skipSpaces_append (h : ∀ c ∈ ws, isSpace c = true) :
    skipSpaces (ws ++ cs) = skipSpaces cs := List.dropWhile_append_of_pos h

theorem skipSpaces_cons (h : isSpace c = false) : skipSpaces (c :: cs) = c :: cs :=
  List.dropWhile_cons_of_neg (by simp [h])

theorem isSpace_newLine (level : Nat) : ∀ c ∈ newLine level, isSpace c = true := by
  intro c hc
  rcases List.mem_cons.1 hc with rfl | hc
  · decide
  · rw [List.eq_of_mem_replicate hc]
    decide

@[simp] theorem skipSpaces_newLine (level : Nat) :
    skipSpaces (newLine level ++ cs) = skipSpaces cs := skipSpaces_append (isSpace_newLine level)

@[simp] theorem skipSpaces_blank : skipSpaces (' ' :: cs) = skipSpaces cs :=
  List.dropWhile_cons_of_pos rfl

end Signs

/-! ## Texts read back -/

section Texts
variable (rest : List Char)

theorem readUnit_digitChar {high low : Nat} (hhigh : high < 16) (hlow : low < 16) :
    readUnit ('0' :: '0' :: Nat.digitChar high :: Nat.digitChar low :: rest) =
      some (16 * high + low, rest) := by
  have hzeros : numberFrom? 16 0 ['0', '0'] = some 0 := rfl
  have hread : numberFrom? 16 0 (['0', '0'] ++ [Nat.digitChar high] ++ [Nat.digitChar low]) =
      some (16 * high + low) := by
    rw [numberFrom?_append, numberFrom?_append, hzeros, Option.bind_some,
      numberFrom?_digitChar (by decide) hhigh, Option.bind_some,
      numberFrom?_digitChar (by decide) hlow, Nat.mul_zero, Nat.zero_add]
  exact congrArg (Option.map (·, rest)) hread

/-- An escaped character reads back, whatever character it is. -/
theorem readChar_escape (c : Char) : readChar (escape c ++ rest) = some (c, rest) := by
  by_cases hquote : c = '"'
  · subst hquote
    rfl
  by_cases hbackslash : c = '\\'
  · subst hbackslash
    rfl
  by_cases hline : c = '\n'
  · subst hline
    rfl
  by_cases hreturn : c = '\r'
  · subst hreturn
    rfl
  by_cases htab : c = '\t'
  · subst htab
    rfl
  by_cases hback : c.toNat = 8
  · obtain rfl : c = Char.ofNat 8 := by rw [← hback, Char.ofNat_toNat]
    rfl
  by_cases hfeed : c.toNat = 12
  · obtain rfl : c = Char.ofNat 12 := by rw [← hfeed, Char.ofNat_toNat]
    rfl
  -- what is left has no letter: a control character has its number, any other one stands for itself
  by_cases hcontrol : c.toNat < 32
  · have hunit := readUnit_digitChar rest (show c.toNat / 16 < 16 by omega)
      (show c.toNat % 16 < 16 by omega)
    rw [Nat.div_add_mod] at hunit
    have hfirst : ¬(0xD800 ≤ c.toNat ∧ c.toNat ≤ 0xDBFF) := by omega
    have hsecond : ¬(0xDC00 ≤ c.toNat ∧ c.toNat ≤ 0xDFFF) := by omega
    simp [escape, hquote, hbackslash, hline, hreturn, htab, hback, hfeed, hcontrol, readChar,
      readEscape, readNumbered, hunit, hfirst, hsecond, Char.ofNat_toNat]
  · simp [escape, hquote, hbackslash, hline, hreturn, htab, hback, hfeed, hcontrol, readChar]

theorem escape_eq_cons (c : Char) : ∃ first more, escape c = first :: more ∧ first ≠ '"' := by
  have hread := readChar_escape [] c
  cases hescape : escape c with
  | nil => simp [hescape, readChar] at hread
  | cons first more =>
    refine ⟨first, more, rfl, ?_⟩
    rintro rfl
    simp [hescape, readChar] at hread

theorem readChars_escape (text : List Char) {bound : Nat}
    (hbound : (text.flatMap escape).length < bound) :
    readChars bound (text.flatMap escape ++ '"' :: rest) = some (text, rest) := by
  induction text generalizing bound with
  | nil =>
    obtain ⟨bound, rfl⟩ := Nat.exists_eq_add_one_of_ne_zero (Nat.ne_zero_of_lt hbound)
    rfl
  | cons c text ih =>
    obtain ⟨bound, rfl⟩ := Nat.exists_eq_add_one_of_ne_zero (Nat.ne_zero_of_lt hbound)
    obtain ⟨first, more, hescape, hfirst⟩ := escape_eq_cons c
    rw [List.flatMap_cons, List.length_append, hescape, List.length_cons] at hbound
    have htext := ih (show (text.flatMap escape).length < bound by omega)
    have hsign : afterSign? '"' (escape c ++ (text.flatMap escape ++ '"' :: rest)) = none := by
      rw [hescape]
      exact afterSign?_ne hfirst
    rw [List.flatMap_cons, List.append_assoc, readChars, hsign]
    simp [readChar_escape, htext]

theorem quoted_append (s : String) :
    quoted s ++ rest = '"' :: (s.toList.flatMap escape ++ '"' :: rest) := by
  simp [quoted]

theorem readText_quoted (s : String) : readText (quoted s ++ rest) = some (s, rest) := by
  have hbound : (s.toList.flatMap escape).length <
      (s.toList.flatMap escape ++ '"' :: rest).length := by simp
  have hchars := readChars_escape rest s.toList hbound
  rw [quoted_append, readText, skipSpaces_cons (by decide), afterSign?_self]
  simp only [Option.bind_eq_bind, Option.bind_some, hchars, String.ofList_toList]

theorem readKey_quoted (key : String) :
    readKey (quoted key ++ ':' :: rest) = some (key, rest) := by
  simp [readKey, readText_quoted, skipSpaces_cons (show isSpace ':' = false by decide)]

end Texts

/-! ## Numbers read back -/

/-- Only zero is written with a leading zero. -/
theorem digits_of_head?_zero {n : Nat} (h : (digits n).head? = some '0') : digits n = ['0'] := by
  induction n using Nat.strongRecOn with
  | ind n ih =>
    rw [digits, Nat.toDigits_eq_if (by decide)] at h ⊢
    split at h
    · rename_i hn
      rw [if_pos hn]
      exact congrArg (fun c => [c]) (Option.some.inj h)
    · rename_i hn
      rw [List.head?_append, Option.or_of_isSome (by simp [Nat.toDigits_ne_nil])] at h
      have hdigits : digits (n / 10) = ['0'] := ih (n / 10) (by omega) h
      have hzero : number? 10 (digits (n / 10)) = some (n / 10) :=
        number?_toDigits (by decide) (by decide) (n / 10)
      rw [hdigits] at hzero
      have hquotient : 0 = n / 10 := Option.some.inj hzero
      omega

theorem readNumber_digits (n : Nat) {rest : List Char}
    (hrest : ∀ c ∈ rest.head?, c.isDigit = false) :
    readNumber (digits n ++ rest) = some (n, rest) := by
  have hall : ∀ c ∈ digits n, c.isDigit = true := fun c hc =>
    Nat.isDigit_of_mem_toDigits (by decide) (by decide) hc
  have htake : (digits n ++ rest).takeWhile Char.isDigit = digits n := by
    rw [List.takeWhile_append_of_pos hall]
    cases rest with
    | nil => simp
    | cons c rest => simp [hrest c rfl]
  have hdrop : (digits n ++ rest).dropWhile Char.isDigit = rest := by
    rw [List.dropWhile_append_of_pos hall]
    cases rest with
    | nil => rfl
    | cons c rest => simp [hrest c rfl]
  have hnumber : number? 10 (digits n) = some n := number?_toDigits (by decide) (by decide) n
  have hzero : ¬((digits n).head? = some '0' ∧ digits n ≠ ['0']) :=
    fun h => h.2 (digits_of_head?_zero h.1)
  simp only [readNumber, htake, hdrop, hnumber, if_neg hzero, Option.map_some]

/-! ## Values read back -/

section Steps
variable {bound level : Nat} {cs rest rest' : List Char} {item : Json} {items : List Json}
  {key : String} {members : List (String × Json)}

theorem readValue_congr {cs' : List Char} (h : skipSpaces cs = skipSpaces cs') :
    readValue bound cs = readValue bound cs' := by
  cases bound with
  | zero => rfl
  | succ bound => rw [readValue, readValue, h]

/-- A closing bracket stands before no value. -/
theorem afterSign?_of_readValue (h : readValue bound cs = some (item, rest)) :
    afterSign? ']' (skipSpaces cs) = none := by
  cases bound with
  | zero => cases h
  | succ bound =>
    rw [readValue] at h
    cases hcs : skipSpaces cs with
    | nil => rfl
    | cons c cs =>
      refine afterSign?_ne ?_
      rintro rfl
      simp [hcs, readNumber, number?] at h

theorem readValue_list (hitem : readValue bound cs = some (item, rest))
    (hitems : readItems bound rest = some (items, rest')) :
    readValue (bound + 1) ('[' :: cs) = some (.list (item :: items), rest') := by
  rw [readValue, skipSpaces_cons (by decide)]
  simp [afterSign?_of_readValue hitem, hitem, hitems]

theorem readItems_cons (hitem : readValue bound cs = some (item, rest))
    (hitems : readItems bound rest = some (items, rest')) :
    readItems (bound + 1) (',' :: cs) = some (item :: items, rest') := by
  rw [readItems, skipSpaces_cons (by decide), afterSign?_ne (by decide), afterSign?_self]
  simp [hitem, hitems]

theorem readItems_nil : readItems (bound + 1) (newLine level ++ ']' :: rest) = some ([], rest) := by
  rw [readItems, skipSpaces_newLine, skipSpaces_cons (by decide), afterSign?_self]

theorem afterSign?_quoted (s : String) : afterSign? '\x7d' (skipSpaces (quoted s ++ cs)) = none := by
  rw [quoted_append, skipSpaces_cons (by decide), afterSign?_ne (by decide)]

theorem readKey_member :
    readKey (newLine level ++ (quoted key ++ ':' :: ' ' :: cs)) = some (key, ' ' :: cs) := by
  rw [readKey, readText, skipSpaces_newLine]
  exact readKey_quoted _ key

theorem readValue_blank (hvalue : readValue bound cs = some (item, rest)) :
    readValue bound (' ' :: cs) = some (item, rest) := by
  rw [readValue_congr skipSpaces_blank, hvalue]

theorem readValue_object (hvalue : readValue bound cs = some (item, rest))
    (hmembers : readMembers bound rest = some (members, rest')) :
    readValue (bound + 1) ('\x7b' :: (newLine level ++ (quoted key ++ ':' :: ' ' :: cs))) =
      some (.object ((key, item) :: members), rest') := by
  rw [readValue, skipSpaces_cons (by decide)]
  simp [afterSign?_quoted, readKey_member, readValue_blank hvalue, hmembers]

theorem readMembers_cons (hvalue : readValue bound cs = some (item, rest))
    (hmembers : readMembers bound rest = some (members, rest')) :
    readMembers (bound + 1) (',' :: (newLine level ++ (quoted key ++ ':' :: ' ' :: cs))) =
      some ((key, item) :: members, rest') := by
  rw [readMembers, skipSpaces_cons (by decide), afterSign?_ne (by decide), afterSign?_self]
  simp [readKey_member, readValue_blank hvalue, hmembers]

theorem readMembers_nil :
    readMembers (bound + 1) (newLine level ++ '\x7d' :: rest) = some ([], rest) := by
  rw [readMembers, skipSpaces_newLine, skipSpaces_cons (by decide), afterSign?_self]

theorem readValue_number (n : Nat) (hrest : ∀ c ∈ rest.head?, c.isDigit = false) :
    readValue (bound + 1) (digits n ++ rest) = some (.number n, rest) := by
  have hread := readNumber_digits n hrest
  cases hdigits : digits n with
  | nil => exact absurd hdigits Nat.toDigits_ne_nil
  | cons c cs =>
    have hc : c.isDigit = true :=
      Nat.isDigit_of_mem_toDigits (by decide) (by decide) (hdigits ▸ List.mem_cons_self)
    have hne : ∀ sign : Char, sign.isDigit = false → c ≠ sign := by
      rintro sign hsign rfl
      exact absurd (hc.symm.trans hsign) (by decide)
    have hspace : isSpace c = false := by
      simp [isSpace, hne]
    rw [hdigits, List.cons_append] at hread
    rw [readValue, List.cons_append, skipSpaces_cons hspace]
    simp [hne, hread]

end Steps

theorem pretty_ne_nil (j : Json) (level : Nat) : j.pretty level ≠ [] := by
  cases j with
  | bool b => cases b <;> exact List.cons_ne_nil _ _
  | number n => exact Nat.toDigits_ne_nil
  | text s => exact List.cons_ne_nil _ _
  | list items => cases items <;> simp [pretty]
  | object members => cases members <;> simp [pretty]

section Follow
variable (level level' : Nat) (cs : List Char)

-- what stands behind a value in a list or an object goes on with no number

theorem head?_prettyItems (items : List Json) :
    ∀ c ∈ (prettyItems level items ++ (newLine level' ++ cs)).head?, c.isDigit = false := by
  cases items <;> simp [prettyItems, newLine]

theorem head?_prettyMembers (members : List (String × Json)) :
    ∀ c ∈ (prettyMembers level members ++ (newLine level' ++ cs)).head?, c.isDigit = false := by
  rcases members with _ | ⟨⟨key, value⟩, members⟩ <;> simp [prettyMembers, newLine]

end Follow

-- The induction is on the value. Every step takes one off the bound, and at least one character off
-- what the bound has to cover.
mutual

theorem readValue_pretty (j : Json) (level bound : Nat) (rest : List Char)
    (hbound : (j.pretty level).length ≤ bound) (hrest : ∀ c ∈ rest.head?, c.isDigit = false) :
    readValue bound (j.pretty level ++ rest) = some (j, rest) := by
  have hpos := List.length_pos_iff.2 (pretty_ne_nil j level)
  obtain ⟨bound, rfl⟩ := Nat.exists_eq_add_one_of_ne_zero (show bound ≠ 0 by omega)
  match j with
  | .bool b => cases b <;> rfl
  | .number n => exact readValue_number n hrest
  | .text s =>
    have htext := readText_quoted rest s
    rw [quoted_append] at htext
    rw [pretty, quoted_append, readValue, skipSpaces_cons (by decide)]
    simp [htext]
  | .list [] => rfl
  | .list (item :: items) =>
    simp only [pretty, List.cons_append, List.append_assoc, List.nil_append, List.length_cons,
      List.length_append, List.length_nil] at hbound ⊢
    have hitem := readValue_pretty item (level + 1) bound _ (by omega)
      (head?_prettyItems (level + 1) level (']' :: rest) items)
    have hitems := readItems_pretty items level bound rest (by omega)
    rw [← readValue_congr (skipSpaces_newLine (level + 1))] at hitem
    exact readValue_list hitem hitems
  | .object [] => rfl
  | .object ((key, value) :: members) =>
    simp only [pretty, List.cons_append, List.append_assoc, List.nil_append, List.length_cons,
      List.length_append, List.length_nil] at hbound ⊢
    have hvalue := readValue_pretty value (level + 1) bound _ (by omega)
      (head?_prettyMembers (level + 1) level ('\x7d' :: rest) members)
    have hmembers := readMembers_pretty members level bound rest (by omega)
    exact readValue_object hvalue hmembers

theorem readItems_pretty (items : List Json) (level bound : Nat) (rest : List Char)
    (hbound : (prettyItems (level + 1) items).length < bound) :
    readItems bound (prettyItems (level + 1) items ++ (newLine level ++ ']' :: rest)) =
      some (items, rest) := by
  obtain ⟨bound, rfl⟩ := Nat.exists_eq_add_one_of_ne_zero (Nat.ne_zero_of_lt hbound)
  match items with
  | [] => exact readItems_nil
  | item :: items =>
    simp only [prettyItems, List.cons_append, List.append_assoc, List.length_cons,
      List.length_append] at hbound ⊢
    have hitem := readValue_pretty item (level + 1) bound _ (by omega)
      (head?_prettyItems (level + 1) level (']' :: rest) items)
    have hitems := readItems_pretty items level bound rest (by omega)
    rw [← readValue_congr (skipSpaces_newLine (level + 1))] at hitem
    exact readItems_cons hitem hitems

theorem readMembers_pretty (members : List (String × Json)) (level bound : Nat) (rest : List Char)
    (hbound : (prettyMembers (level + 1) members).length < bound) :
    readMembers bound (prettyMembers (level + 1) members ++ (newLine level ++ '\x7d' :: rest)) =
      some (members, rest) := by
  obtain ⟨bound, rfl⟩ := Nat.exists_eq_add_one_of_ne_zero (Nat.ne_zero_of_lt hbound)
  match members with
  | [] => exact readMembers_nil
  | (key, value) :: members =>
    simp only [prettyMembers, List.cons_append, List.append_assoc, List.length_cons,
      List.length_append] at hbound ⊢
    have hvalue := readValue_pretty value (level + 1) bound _ (by omega)
      (head?_prettyMembers (level + 1) level ('\x7d' :: rest) members)
    have hmembers := readMembers_pretty members level bound rest (by omega)
    exact readMembers_cons hvalue hmembers

end

/-- The text of a report has the value that was written, and nothing else. -/
theorem ofText?_indented (j : Json) : ofText? j.indented = some j := by
  have hread := readValue_pretty j 0 j.indented.length ['\n']
    (by simp [indented, String.length_append]) (by simp)
  have htext : j.indented.toList = j.pretty 0 ++ ['\n'] := by
    simp [indented]
  rw [ofText?, htext, hread]
  rfl

example : ofText? "[10, \"\\ud83d\\ude00\" ] " = some (.list [.number 10, .text "😀"]) := by rfl

end Json

end DirDigest
