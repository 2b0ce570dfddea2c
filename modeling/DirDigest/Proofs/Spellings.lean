import DirDigest.Proofs.IgnoreSources

/-! # Spellings of ignored paths

A user may write a path with slashes or backslashes, with `.` parts and with more than one separator
in a row. Bringing it into the form of a key works on its two ends only.

* `Spells`: a text is a relative path with given names.
* `normalizeChars_parts`: what the form of a key means for the parts of a text.
* `SpellsPlainly`: a text has `.` parts only before its names and empty parts only behind them.
* `spellings_normalized`: these spellings, and no others, are brought into the form of the key.
-/

set_option autoImplicit false

namespace DirDigest

/-! ## Parts -/

/-- Whether a character separates the parts of a path that a user writes. -/
def isSeparator (c : Char) : Bool := c == '/' || c == '\\'

/-- The parts of a text between separators. -/
def partsOf (cs : List Char) : List (List Char) := cs.splitOnP isSeparator

/-- Whether a part stands for the place where it is. -/
def isHere (part : List Char) : Bool := part == ['.']

/-- Whether a part leads nowhere. -/
def isIdlePart (part : List Char) : Bool := part.isEmpty || isHere part

/-- The parts that lead somewhere. -/
def namedParts (parts : List (List Char)) : List (List Char) :=
  parts.filter fun part => !isIdlePart part

/-- Parts with slashes between them. -/
def joinParts (parts : List (List Char)) : List Char := ['/'].intercalate parts

theorem splitOn_forwardSlashes (cs : List Char) : (forwardSlashes cs).splitOn '/' = partsOf cs := by
  induction cs with
  | nil => rfl
  | cons c cs ih =>
    have hcons : forwardSlashes (c :: cs) = (if c = '\\' then '/' else c) :: forwardSlashes cs := rfl
    rw [hcons, List.splitOn_cons_eq_if_modifyHead, ih, partsOf, partsOf,
      List.splitOnP_cons_eq_if_modifyHead]
    by_cases hc : isSeparator c = true
    · have hslash : ((if c = '\\' then '/' else c) == '/') = true := by
        rcases Bool.or_eq_true_iff.1 hc with hc | hc
        · rw [beq_iff_eq.1 hc]
          rfl
        · rw [beq_iff_eq.1 hc]
          rfl
      rw [if_pos hslash, if_pos hc]
    · obtain ⟨hslash, hback⟩ := not_or.1 fun h => hc (Bool.or_eq_true_iff.2 h)
      rw [if_neg (c := c = '\\') fun h => hback (beq_iff_eq.2 h), if_neg hslash, if_neg hc]

theorem joinParts_partsOf (cs : List Char) : joinParts (partsOf cs) = forwardSlashes cs := by
  rw [joinParts, ← splitOn_forwardSlashes, List.intercalate_splitOn]

theorem splitOn_joinParts {parts : List (List Char)} (hne : parts ≠ [])
    (h : ∀ part ∈ parts, '/' ∉ part) : (joinParts parts).splitOn '/' = parts :=
  List.splitOn_intercalate '/' h hne

theorem joinParts_cons {parts : List (List Char)} (hne : parts ≠ []) (part : List Char) :
    joinParts (part :: parts) = part ++ '/' :: joinParts parts := by
  rw [joinParts, List.intercalate_cons_of_ne_nil hne, List.append_assoc]
  rfl

theorem joinParts_concat {parts : List (List Char)} (hne : parts ≠ []) (last : List Char) :
    joinParts (parts ++ [last]) = joinParts parts ++ '/' :: last := by
  induction parts with
  | nil => exact absurd rfl hne
  | cons part rest ih =>
    by_cases hrest : rest = []
    · rw [hrest, List.singleton_append, joinParts_cons (List.cons_ne_nil _ _)]
      simp [joinParts]
    · rw [List.cons_append, joinParts_cons (List.append_ne_nil_of_left_ne_nil hrest _), ih hrest,
        joinParts_cons hrest, List.append_assoc]
      rfl

theorem slash_notMem_partsOf (cs : List Char) : ∀ part ∈ partsOf cs, '/' ∉ part := by
  intro part hpart hslash
  exact absurd (false_of_mem_splitOnP part hpart '/' hslash) (by decide)

/-! ## The two ends -/

theorem dropHere_joinParts {parts : List (List Char)} (h : ∀ part ∈ parts, '/' ∉ part)
    (hne : parts.dropWhile isHere ≠ []) :
    dropHere (joinParts parts) = joinParts (parts.dropWhile isHere) := by
  induction parts with
  | nil => rfl
  | cons part rest ih =>
    obtain ⟨hpart, hrest⟩ := List.forall_mem_cons.1 h
    by_cases hhere : isHere part = true
    · rw [List.dropWhile_cons_of_pos hhere] at hne ⊢
      have hsome : rest ≠ [] := fun hnil => hne (by rw [hnil]; rfl)
      rw [joinParts_cons hsome, beq_iff_eq.1 hhere, ← ih hrest hne]
      rfl
    · rw [List.dropWhile_cons_of_neg hhere]
      have hpart' : part ≠ ['.'] := fun heq => hhere (beq_iff_eq.2 heq)
      by_cases hnil : rest = []
      · have hlast : joinParts (part :: rest) = part ++ [] := by
          simp [hnil, joinParts]
        rw [hlast]
        exact dropHere_part hpart' hpart fun _ => nofun
      · rw [joinParts_cons hnil]
        exact dropHere_part hpart' hpart fun _ => by simp

theorem trimEnd_joinParts {parts : List (List Char)} (h : ∀ part ∈ parts, '/' ∉ part) :
    trimEnd (· == '/') (joinParts parts) = joinParts (parts.rdropWhile List.isEmpty) := by
  induction parts using List.reverseRecOn with
  | nil => rfl
  | append_singleton parts last ih =>
    obtain ⟨hparts, hlast⟩ := List.forall_mem_append.1 h
    by_cases hempty : last.isEmpty = true
    · rw [List.rdropWhile_concat_pos _ _ _ hempty, List.isEmpty_iff.1 hempty, ← ih hparts]
      by_cases hnil : parts = []
      · rw [hnil]
        rfl
      · rw [joinParts_concat hnil]
        exact trimEnd_concat rfl _
    · have hsome : last ≠ [] := fun hnil => hempty (List.isEmpty_iff.2 hnil)
      rw [List.rdropWhile_concat_neg _ _ _ hempty, trimEnd_eq_self]
      have hend : (joinParts (parts ++ [last])).getLast? = last.getLast? := by
        by_cases hnil : parts = []
        · simp [hnil, joinParts]
        · rw [joinParts_concat hnil, List.getLast?_append_of_ne_nil _ (List.cons_ne_nil _ _),
            List.getLast?_cons_of_ne_nil hsome]
      intro c hc
      rw [hend] at hc
      rw [beq_eq_false_iff_ne]
      rintro rfl
      exact hlast last List.mem_cons_self (List.mem_of_getLast? hc)

/-- The parts of a text that are kept: no `.` before them, and no empty part behind them. -/
def keptParts (parts : List (List Char)) : List (List Char) :=
  (parts.dropWhile isHere).rdropWhile List.isEmpty

/-- The form of a key, told by parts. -/
theorem normalizeChars_parts {cs : List Char} (htrim : trimBlank cs = cs)
    (hne : (partsOf cs).dropWhile isHere ≠ []) :
    normalizeChars cs = joinParts (keptParts (partsOf cs)) := by
  have hslash := slash_notMem_partsOf cs
  have hdropped : ∀ part ∈ (partsOf cs).dropWhile isHere, '/' ∉ part := fun part hpart =>
    hslash part ((List.dropWhile_sublist _).subset hpart)
  rw [normalizeChars, htrim, ← joinParts_partsOf, dropHere_joinParts hslash hne,
    trimEnd_joinParts hdropped]
  rfl

theorem idle_of_isHere {part : List Char} (h : isHere part = true) : isIdlePart part = true := by
  rw [isIdlePart, h, Bool.or_true]

theorem idle_of_isEmpty {part : List Char} (h : part.isEmpty = true) : isIdlePart part = true := by
  rw [isIdlePart, h, Bool.true_or]

theorem namedParts_append (parts more : List (List Char)) :
    namedParts (parts ++ more) = namedParts parts ++ namedParts more := List.filter_append ..

theorem mem_namedParts {parts : List (List Char)} {part : List Char} :
    part ∈ namedParts parts ↔ part ∈ parts ∧ isIdlePart part = false := by
  simp [namedParts]

theorem namedParts_eq_nil {parts : List (List Char)}
    (h : ∀ part ∈ parts, isIdlePart part = true) : namedParts parts = [] := by
  rw [List.eq_nil_iff_forall_not_mem]
  intro part hmem
  obtain ⟨hpart, hlive⟩ := mem_namedParts.1 hmem
  rw [h part hpart] at hlive
  cases hlive

/-- What is not kept leads nowhere. -/
theorem namedParts_keptParts (parts : List (List Char)) :
    namedParts (keptParts parts) = namedParts parts := by
  have hfront : namedParts (parts.takeWhile isHere) = [] :=
    namedParts_eq_nil fun part hpart => idle_of_isHere (List.mem_takeWhile_imp hpart)
  have hback : namedParts ((parts.dropWhile isHere).rtakeWhile List.isEmpty) = [] :=
    namedParts_eq_nil fun part hpart => idle_of_isEmpty (List.mem_rtakeWhile_imp hpart)
  calc namedParts (keptParts parts)
      = namedParts (keptParts parts ++ (parts.dropWhile isHere).rtakeWhile List.isEmpty) := by
        rw [namedParts_append, hback, List.append_nil]
    _ = namedParts (parts.dropWhile isHere) := by
        rw [keptParts, List.rdropWhile_append_rtakeWhile]
    _ = namedParts (parts.takeWhile isHere ++ parts.dropWhile isHere) := by
        rw [namedParts_append, hfront, List.nil_append]
    _ = namedParts parts := by rw [List.takeWhile_append_dropWhile]

/-! ## Spellings -/

/-- Whether a text is a relative path with these names: they are its parts, but for those that lead
nowhere. -/
structure Spells (text : String) (names : List String) : Prop where
  relative : ∀ c, text.toList.head? = some c → isSeparator c = false
  parts : namedParts (partsOf text.toList) = names.map String.toList
  notEmpty : names ≠ []
  notUp : ∀ name ∈ names, name ≠ ".."
  unfringed : ∀ name ∈ names, ¬Fringed name

/-- Whether a text has the parts `.` only before its names, and empty parts only behind them. -/
def SpellsPlainly (text : String) (names : List String) : Prop :=
  ∃ heres ends : Nat, partsOf text.toList =
    List.replicate heres ['.'] ++ names.map String.toList ++ List.replicate ends []

theorem head?_partsOf {cs : List Char} {c : Char} (h : cs.head? = some c) :
    isSeparator c = true ∨ ∃ part ∈ partsOf cs, part.head? = some c := by
  cases cs with
  | nil => cases h
  | cons d cs =>
    obtain rfl := Option.some.inj h
    by_cases hd : isSeparator d = true
    · exact .inl hd
    · obtain ⟨part, rest, hparts⟩ := List.exists_cons_of_ne_nil (List.splitOnP_ne_nil isSeparator cs)
      refine .inr ⟨d :: part, ?_, rfl⟩
      rw [partsOf, List.splitOnP_cons_eq_if_modifyHead, if_neg hd, hparts]
      exact List.mem_cons_self

theorem getLast?_partsOf {cs : List Char} {c : Char} (h : cs.getLast? = some c) :
    isSeparator c = true ∨ ∃ part ∈ partsOf cs, part.getLast? = some c := by
  obtain ⟨front, rfl⟩ := List.getLast?_eq_some_iff.1 h
  by_cases hc : isSeparator c = true
  · exact .inl hc
  · refine .inr ?_
    -- the last part grows by the character, whatever stands before it
    clear h
    induction front with
    | nil =>
      refine ⟨[c], ?_, rfl⟩
      rw [List.nil_append, partsOf, List.splitOnP_cons_eq_if_modifyHead, if_neg hc]
      exact List.mem_cons_self
    | cons d front ih =>
      obtain ⟨part, hpart, hlast⟩ := ih
      rw [List.cons_append, partsOf, List.splitOnP_cons_eq_if_modifyHead]
      split
      · exact ⟨part, List.mem_cons_of_mem _ hpart, hlast⟩
      · obtain ⟨first, rest, hparts⟩ :=
          List.exists_cons_of_ne_nil (List.splitOnP_ne_nil isSeparator (front ++ [c]))
        rw [partsOf, hparts] at hpart
        rw [hparts, List.modifyHead_cons]
        rcases List.mem_cons.1 hpart with rfl | hrest
        · have hne : part ≠ [] := fun hnil => by
            rw [hnil] at hlast
            cases hlast
          exact ⟨d :: part, List.mem_cons_self, (List.getLast?_cons_of_ne_nil hne).trans hlast⟩
        · exact ⟨part, List.mem_cons_of_mem _ hrest, hlast⟩

theorem isBlank_separator {c : Char} (h : isSeparator c = true) : isBlank c = false := by
  rcases Bool.or_eq_true_iff.1 h with h | h
  · rw [beq_iff_eq.1 h]
    decide
  · rw [beq_iff_eq.1 h]
    decide

theorem joinNames_toList {names : List String} (hne : names ≠ []) :
    (joinNames names).toList = joinParts (names.map String.toList) := by
  induction names with
  | nil => exact absurd rfl hne
  | cons name rest ih =>
    cases rest with
    | nil => simp [joinNames, joinParts]
    | cons second more =>
      have hmore := ih (List.cons_ne_nil second more)
      rw [List.map_cons, joinParts_cons (by simp), ← hmore]
      simp [joinNames, String.toList_append]

theorem not_isIdlePart {names : List String} (h : ∀ name ∈ names, IsNameText name) :
    ∀ part ∈ names.map String.toList, isIdlePart part = false := by
  intro part hpart
  obtain ⟨name, hname, rfl⟩ := List.mem_map.1 hpart
  have hempty : name.toList ≠ [] := fun hnil => (h name hname).notEmpty (String.toList_inj.1 hnil)
  have hhere : name.toList ≠ ['.'] := fun heq => (h name hname).notHere (String.toList_inj.1 heq)
  rw [isIdlePart, isHere, List.isEmpty_eq_false_iff.2 hempty, beq_eq_false_iff_ne.2 hhere]
  rfl

theorem keptParts_subset (parts : List (List Char)) : keptParts parts ⊆ parts :=
  ((List.rdropWhile_prefix List.isEmpty _).sublist.trans (List.dropWhile_sublist isHere)).subset

theorem dropWhile_padded {α : Type} {p : α → Bool} {pad l : List α} (hpad : ∀ a ∈ pad, p a = true)
    (hl : ∀ a ∈ l, p a = false) : (pad ++ l).dropWhile p = l := by
  rw [List.dropWhile_append_of_pos hpad]
  cases l with
  | nil => rfl
  | cons a l => exact List.dropWhile_cons_of_neg (Bool.eq_false_iff.1 (hl a List.mem_cons_self))

theorem keptParts_plain {parts : List (List Char)} (h : ∀ part ∈ parts, isIdlePart part = false)
    (heres ends : Nat) :
    keptParts (List.replicate heres ['.'] ++ parts ++ List.replicate ends []) = parts := by
  have hparts : ∀ part ∈ parts, part.isEmpty = false ∧ isHere part = false := fun part hpart =>
    Bool.or_eq_false_iff.1 (h part hpart)
  have hfront : (List.replicate heres ['.'] ++ (parts ++ List.replicate ends [])).dropWhile isHere =
      parts ++ List.replicate ends [] := by
    refine dropWhile_padded (fun part hpart => ?_) fun part hpart => ?_
    · rw [List.eq_of_mem_replicate hpart]
      rfl
    · rcases List.mem_append.1 hpart with hpart | hpart
      · exact (hparts part hpart).2
      · rw [List.eq_of_mem_replicate hpart]
        rfl
  have hback : (List.replicate ends [] ++ parts.reverse).dropWhile List.isEmpty = parts.reverse := by
    refine dropWhile_padded (fun part hpart => ?_) fun part hpart => ?_
    · rw [List.eq_of_mem_replicate hpart]
      rfl
    · exact (hparts part (List.mem_reverse.1 hpart)).1
  rw [List.append_assoc, keptParts, hfront, List.rdropWhile, List.reverse_append,
    List.reverse_replicate, hback, List.reverse_reverse]

section Spelled
variable {text : String} {names : List String} (h : Spells text names)
include h

theorem Spells.isNameText : ∀ name ∈ names, IsNameText name := by
  intro name hname
  have hmem : name.toList ∈ namedParts (partsOf text.toList) := by
    rw [h.parts]
    exact List.mem_map_of_mem hname
  obtain ⟨hpart, hlive⟩ := mem_namedParts.1 hmem
  refine ⟨?_, ?_, h.notUp name hname, slash_notMem_partsOf _ _ hpart⟩
  · rintro rfl
    exact absurd hlive (by decide)
  · rintro rfl
    exact absurd hlive (by decide)

theorem Spells.isKey : IsKey (joinNames names) := ⟨names, h.notEmpty, h.isNameText, rfl⟩

theorem Spells.part_cases {part : List Char} (hpart : part ∈ partsOf text.toList) :
    part = [] ∨ part = ['.'] ∨ ∃ name ∈ names, name.toList = part := by
  by_cases hidle : isIdlePart part = true
  · exact (Bool.or_eq_true_iff.1 hidle).imp List.isEmpty_iff.1 fun hhere => .inl (beq_iff_eq.1 hhere)
  · have hmem : part ∈ namedParts (partsOf text.toList) :=
      mem_namedParts.2 ⟨hpart, Bool.eq_false_iff.2 hidle⟩
    rw [h.parts] at hmem
    exact .inr (.inr (List.mem_map.1 hmem))

theorem Spells.not_isBlank {part : List Char} (hpart : part ∈ partsOf text.toList) {c : Char}
    (hc : part.head? = some c ∨ part.getLast? = some c) : isBlank c = false := by
  rcases h.part_cases hpart with rfl | rfl | ⟨name, hname, rfl⟩
  · rcases hc with hc | hc
    · cases hc
    · cases hc
  · have hdot : c = '.' := by
      rcases hc with hc | hc
      · exact (Option.some.inj hc).symm
      · exact (Option.some.inj hc).symm
    rw [hdot]
    decide
  · refine Bool.eq_false_iff.2 fun hblank => h.unfringed name hname ?_
    exact hc.imp (fun hfirst => ⟨c, hfirst, hblank⟩) fun hlast => ⟨c, hlast, hblank⟩

theorem Spells.trimmed : trimBlank text.toList = text.toList := by
  rw [trimBlank_eq_self]
  constructor
  · intro c hc
    rcases head?_partsOf hc with hc | ⟨part, hpart, hfirst⟩
    · exact isBlank_separator hc
    · exact h.not_isBlank hpart (.inl hfirst)
  · intro c hc
    rcases getLast?_partsOf hc with hc | ⟨part, hpart, hlast⟩
    · exact isBlank_separator hc
    · exact h.not_isBlank hpart (.inr hlast)

theorem Spells.kept : (partsOf text.toList).dropWhile isHere ≠ [] ∧
    keptParts (partsOf text.toList) ≠ [] := by
  have hnamed : namedParts (keptParts (partsOf text.toList)) ≠ [] := by
    rw [namedParts_keptParts, h.parts]
    exact fun hnil => h.notEmpty (List.map_eq_nil_iff.1 hnil)
  have hkept : keptParts (partsOf text.toList) ≠ [] := fun hnil => hnamed (by rw [hnil]; rfl)
  exact ⟨fun hnil => hkept (by rw [keptParts, hnil]; rfl), hkept⟩

/-- A text is brought into the form of a key exactly if its kept parts are the names of that key. -/
theorem Spells.normalize_iff {texts : List String} (hne : texts ≠ [])
    (htexts : ∀ t ∈ texts, IsNameText t) : normalize text = joinNames texts ↔
      keptParts (partsOf text.toList) = texts.map String.toList := by
  rw [normalize_eq_iff, normalizeChars_parts h.trimmed h.kept.1, joinNames_toList hne]
  constructor
  · intro heq
    have hslash : ∀ part ∈ keptParts (partsOf text.toList), '/' ∉ part := fun part hpart =>
      slash_notMem_partsOf _ _ (keptParts_subset _ hpart)
    have hsplit := congrArg (List.splitOn '/') heq
    rw [splitOn_joinParts h.kept.2 hslash, splitOn_joinParts] at hsplit
    · exact hsplit
    · exact fun hnil => hne (List.map_eq_nil_iff.1 hnil)
    · intro part hpart
      obtain ⟨t, ht, rfl⟩ := List.mem_map.1 hpart
      exact (htexts t ht).noSlash
  · exact fun heq => congrArg joinParts heq

theorem Spells.plainly_iff : SpellsPlainly text names ↔
    keptParts (partsOf text.toList) = names.map String.toList := by
  constructor
  · rintro ⟨heres, ends, hparts⟩
    rw [hparts]
    exact keptParts_plain (not_isIdlePart h.isNameText) heres ends
  · intro hkept
    have hheres : ∀ part ∈ (partsOf text.toList).takeWhile isHere, part = ['.'] := by
      intro part hpart
      have hhere : isHere part = true := List.mem_takeWhile_imp hpart
      exact beq_iff_eq.1 hhere
    have hends : ∀ part ∈ ((partsOf text.toList).dropWhile isHere).rtakeWhile List.isEmpty,
        part = [] := fun part hpart => List.isEmpty_iff.1 (List.mem_rtakeWhile_imp hpart)
    refine ⟨((partsOf text.toList).takeWhile isHere).length,
      (((partsOf text.toList).dropWhile isHere).rtakeWhile List.isEmpty).length, ?_⟩
    rw [← List.eq_replicate_of_mem hheres, ← hkept, List.append_assoc,
      ← List.eq_replicate_of_mem hends, keptParts, List.rdropWhile_append_rtakeWhile,
      List.takeWhile_append_dropWhile]

/-- If the form that a text is brought into is that of some key, it is that of its own names. -/
theorem Spells.isKey_iff : IsKey (normalize text) ↔ normalize text = joinNames names := by
  constructor
  · rintro ⟨texts, hne, htexts, hkey⟩
    have hkept := (h.normalize_iff hne htexts).1 hkey
    have hlive : namedParts (texts.map String.toList) = texts.map String.toList := by
      rw [namedParts, List.filter_eq_self]
      intro part hpart
      rw [not_isIdlePart htexts part hpart]
      rfl
    rw [h.normalize_iff h.notEmpty h.isNameText, hkept, ← hlive, ← hkept, namedParts_keptParts,
      h.parts]
  · intro heq
    rw [heq]
    exact h.isKey

end Spelled

/-! ## What a spelling adds -/

/-- One source of ignored paths has a text more than another, as a value or as a line that is no
comment. -/
inductive IgnoreSource.Adds (text : String) : IgnoreSource → IgnoreSource → Prop
  | value (first rest : List String) (content : Option String) :
    Adds text ⟨first ++ rest, content⟩ ⟨first ++ text :: rest, content⟩
  | line {content content' : String} {before after : List String} (given : List String)
    (hlines : HasLines content (before ++ after))
    (hlines' : HasLines content' (before ++ text :: after)) (h : text.toList.head? ≠ some '#') :
    Adds text ⟨given, some content⟩ ⟨given, some content'⟩

theorem Spells.namesPath {text : String} {names : List String} (h : Spells text names)
    (hcomment : text.toList.head? ≠ some '#') : NamesPath text := by
  rw [NamesPath, h.trimmed]
  refine ⟨fun hnil => ?_, hcomment⟩
  have hparts := h.parts
  rw [hnil] at hparts
  exact h.notEmpty (List.map_eq_nil_iff.1 hparts.symm)

/-- A spelling adds the form that it is brought into, and nothing else. -/
theorem Spells.adds {text : String} {names : List String} (h : Spells text names)
    {s s' : IgnoreSource} (hadds : IgnoreSource.Adds text s s') (key : String) :
    key ∈ s'.paths ↔ normalize text = key ∨ key ∈ s.paths := by
  cases hadds with
  | value first rest content =>
    cases content with
    | none => rw [mem_paths_none, mem_paths_none, exists_mem_middle]
    | some content =>
      obtain ⟨lines, hlines⟩ := exists_hasLines content
      rw [mem_paths hlines, mem_paths hlines, exists_mem_middle, or_assoc]
  | line given hlines hlines' hcomment =>
    rw [mem_paths hlines, mem_paths hlines', exists_mem_middle,
      and_iff_right (h.namesPath hcomment), or_left_comm]

theorem keyOf?_map_utf8 (names : List String) : keyOf? (names.map utf8) = some (joinNames names) := by
  have hread : Bytes.text? ∘ utf8 = pure := funext text?_utf8
  rw [keyOf?, List.mapM_map, hread, List.mapM_pure, List.map_id']
  rfl

/-- A spelling is brought into the form of the key of its names exactly if it is a plain one, and
then it ignores that key. Any other spelling is brought into the form of no key at all, and nothing
comes of it, whether it is given as a value or as a line. -/
theorem spellings_normalized {text : String} {names : List String} (h : Spells text names) :
    IsKey (joinNames names) ∧ keyOf? (names.map utf8) = some (joinNames names) ∧
    (normalize text = joinNames names ↔ SpellsPlainly text names) ∧
    (¬SpellsPlainly text names → ∀ key, IsKey key → normalize text ≠ key) ∧
    ∀ s s', IgnoreSource.Adds text s s' →
      (SpellsPlainly text names →
        ∀ key, key ∈ s'.paths ↔ joinNames names = key ∨ key ∈ s.paths) ∧
      (¬SpellsPlainly text names → ∀ (t : FileTree) (root : Path) (options : TreeOptions),
        digestTree t root options s'.paths = digestTree t root options s.paths) := by
  have hplain : normalize text = joinNames names ↔ SpellsPlainly text names := by
    rw [h.plainly_iff, h.normalize_iff h.notEmpty h.isNameText]
  have hnone : ¬SpellsPlainly text names → ∀ key, IsKey key → normalize text ≠ key := by
    rintro hnot key hkey rfl
    exact hnot (hplain.1 (h.isKey_iff.1 hkey))
  refine ⟨h.isKey, keyOf?_map_utf8 names, hplain, hnone, fun s s' hadds => ⟨fun hp key => ?_, ?_⟩⟩
  · rw [h.adds hadds, hplain.2 hp]
  · intro hnot t root options
    refine digestTree_congr (fun key hkey => ?_) t root options
    rw [h.adds hadds, or_iff_right (hnone hnot key hkey)]

theorem spells_doubled : Spells "a//b" ["a", "b"] where
  relative c hc := by
    obtain rfl := Option.some.inj hc
    decide
  parts := by decide
  notEmpty := by decide
  notUp := by decide
  unfringed := by simp [Fringed, isBlank]

theorem spells_dressed : Spells ".\\a/b//" ["a", "b"] where
  relative c hc := by
    obtain rfl := Option.some.inj hc
    decide
  parts := by decide
  notEmpty := by decide
  notUp := by decide
  unfringed := by simp [Fringed, isBlank]

theorem spellings_normalized_sample :
    Spells ".\\a/b//" ["a", "b"] ∧ normalize ".\\a/b//" = joinNames ["a", "b"] ∧
    Spells "a//b" ["a", "b"] ∧
    ∀ (t : FileTree) (root : Path), digestTree t root {} (ignoreSet ["a//b"] none) =
      digestTree t root {} (ignoreSet [] none) := by
  obtain ⟨-, -, hdressed, -, -⟩ := spellings_normalized spells_dressed
  obtain ⟨-, -, hdoubled, -, hadds⟩ := spellings_normalized spells_doubled
  have hplain : SpellsPlainly ".\\a/b//" ["a", "b"] := ⟨1, 2, by decide⟩
  have hnot : ¬SpellsPlainly "a//b" ["a", "b"] := by
    rw [← hdoubled]
    decide
  exact ⟨spells_dressed, hdressed.2 hplain, spells_doubled,
    fun t root => (hadds _ _ (.value [] [] none)).2 hnot t root {}⟩

/-- A doubled separator between two names is kept. -/
theorem doubled_separator_kept :
    ¬∀ (text : String) (names : List String), Spells text names →
      normalize text = joinNames names := by
  intro hall
  exact absurd (hall "a//b" ["a", "b"] spells_doubled) (by decide)

end DirDigest
