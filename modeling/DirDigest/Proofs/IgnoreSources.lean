import DirDigest.Proofs.IgnoredPaths
import Mathlib.Logic.Relation

/-! # Where ignored paths come from

Ignored paths are given one by one or as the lines of a file. A line is trimmed before it is looked
at, so neither its end nor blanks around it count.

* `HasLines`: the lines of a text, which may lack the end of the last one.
* `trimmedLines`: the lines that are read from a text, once they are trimmed.
* `mem_paths`: the paths that values and lines give.
* `IgnoreSource.Edit`: rewritings of the values and the file, and `paths_of_edits`, any number of
  them.
* `ignored_alike`: what is ignored, and that it stays the same under all rewritings.
-/

set_option autoImplicit false

namespace DirDigest

/-! ## Trimming -/

theorem trimEnd_concat {drop : Char → Bool} {c : Char} (hc : drop c = true) (cs : List Char) :
    trimEnd drop (cs ++ [c]) = trimEnd drop cs :=
  List.rdropWhile_concat_pos _ _ _ hc

theorem trimBlank_trimBlank (cs : List Char) : trimBlank (trimBlank cs) = trimBlank cs := by
  rw [trimBlank_eq_self]
  constructor
  · intro c hc
    -- trimming at the end leaves the first character in its place
    obtain ⟨rest, hrest⟩ := List.rdropWhile_prefix isBlank (l := cs.dropWhile isBlank)
    have hfirst : (cs.dropWhile isBlank).head? = some c := by
      rw [← hrest]
      exact List.mem_head?_append_of_mem_head? hc
    have hnot := List.head?_dropWhile_not isBlank cs
    rw [hfirst] at hnot
    exact hnot
  · intro c hc
    have hne : trimBlank cs ≠ [] := fun hnil => by
      rw [hnil] at hc
      cases hc
    have hlast := List.rdropWhile_last_not isBlank (cs.dropWhile isBlank) hne
    rw [List.getLast?_eq_some_getLast hne] at hc
    exact Bool.eq_false_iff.2 (Option.some.inj hc ▸ hlast)

theorem trimBlank_concat {c : Char} (hc : isBlank c = true) (cs : List Char) :
    trimBlank (cs ++ [c]) = trimBlank cs := by
  have hsingle : [c].dropWhile isBlank = [] := List.dropWhile_cons_of_pos hc
  unfold trimBlank
  rw [List.dropWhile_append, hsingle]
  split
  · rename_i hnil
    rw [List.isEmpty_iff.1 hnil]
  · exact trimEnd_concat hc _

theorem normalize_ofList (cs : List Char) :
    normalize (String.ofList cs) = String.ofList (normalizeChars (trimBlank cs)) := by
  rw [normalize, String.toList_ofList]
  simp only [normalizeChars, trimBlank_trimBlank]

/-! ## Lines -/

/-- Whether a text has these lines; the last one may lack its end. -/
def HasLines (content : String) (lines : List String) : Prop :=
  (∀ line ∈ lines, '\n' ∉ line.toList) ∧
    (content = textOfLines lines ∨ content ++ "\n" = textOfLines lines)

/-- Whether a line names a path: once trimmed, it is not empty and does not start with `#`. -/
def NamesPath (line : String) : Prop :=
  trimBlank line.toList ≠ [] ∧ (trimBlank line.toList).head? ≠ some '#'

instance (line : String) : Decidable (NamesPath line) := inferInstanceAs (Decidable (_ ∧ _))

/-- The lines that are read from a text, without the white space at their ends. -/
def trimmedLines (cs : List Char) : List (List Char) := (linesOf cs).map trimBlank

theorem linesOf_line {line : List Char} (h : '\n' ∉ line) (rest : List Char) :
    ∃ shown, linesOf (line ++ '\n' :: rest) = shown :: linesOf rest ∧
      (shown = line ∨ shown ++ ['\r'] = line) := by
  induction line with
  | nil => exact ⟨[], rfl, .inl rfl⟩
  | cons c line ih =>
    have hc : c ≠ '\n' := (List.ne_of_not_mem_cons h).symm
    obtain ⟨shown, hshown, hline⟩ := ih (List.not_mem_of_not_mem_cons h)
    rw [List.cons_append, linesOf, if_neg hc]
    by_cases hreturn : c = '\r' ∧ (line ++ '\n' :: rest).head? = some '\n'
    · rw [if_pos hreturn, hshown]
      refine ⟨shown, rfl, .inr ?_⟩
      -- a carriage return before the line feed is the last character of its line
      cases line with
      | nil =>
        rcases hline with rfl | hline
        · rw [hreturn.1]
          rfl
        · exact absurd hline (List.append_ne_nil_of_right_ne_nil _ (List.cons_ne_nil _ _))
      | cons d line =>
        have hd : d = '\n' := Option.some.inj hreturn.2
        exact absurd (List.mem_cons_of_mem c (hd ▸ List.mem_cons_self)) h
    · rw [if_neg hreturn, hshown]
      refine ⟨c :: shown, rfl, hline.imp ?_ ?_⟩
      · exact fun heq => congrArg (c :: ·) heq
      · exact fun heq => congrArg (c :: ·) heq

theorem linesOf_last {last : List Char} (h : '\n' ∉ last) (hne : last ≠ []) :
    linesOf last = [last] := by
  induction last with
  | nil => exact absurd rfl hne
  | cons c rest ih =>
    have hc : c ≠ '\n' := (List.ne_of_not_mem_cons h).symm
    have hrest : '\n' ∉ rest := List.not_mem_of_not_mem_cons h
    have hreturn : ¬(c = '\r' ∧ rest.head? = some '\n') :=
      fun hr => hrest (List.mem_of_head? hr.2)
    rw [linesOf, if_neg hc, if_neg hreturn]
    by_cases hnil : rest = []
    · rw [hnil]
      rfl
    · rw [ih hrest hnil]

theorem filter_trimmedLines {last : List Char} (h : '\n' ∉ last) :
    (trimmedLines last).filter namesPath = [trimBlank last].filter namesPath := by
  by_cases hnil : last = []
  · rw [hnil]
    rfl
  · rw [trimmedLines, linesOf_last h hnil]
    rfl

theorem trimmedLines_line {line : List Char} (h : '\n' ∉ line) (rest : List Char) :
    trimmedLines (line ++ '\n' :: rest) = trimBlank line :: trimmedLines rest := by
  obtain ⟨shown, hshown, hline⟩ := linesOf_line h rest
  rw [trimmedLines, hshown, List.map_cons]
  rcases hline with rfl | rfl
  · rfl
  · rw [trimBlank_concat (by decide)]
    rfl

theorem textOfLines_cons (line : String) (lines : List String) :
    (textOfLines (line :: lines)).toList = line.toList ++ '\n' :: (textOfLines lines).toList := by
  simp [textOfLines, String.join_cons]

theorem trimmedLines_textOfLines {lines : List String} (h : ∀ line ∈ lines, '\n' ∉ line.toList)
    (rest : List Char) : trimmedLines ((textOfLines lines).toList ++ rest) =
      lines.map (fun line => trimBlank line.toList) ++ trimmedLines rest := by
  induction lines with
  | nil => simp [textOfLines]
  | cons line lines ih =>
    obtain ⟨hline, hlines⟩ := List.forall_mem_cons.1 h
    rw [textOfLines_cons, List.append_assoc, List.cons_append, trimmedLines_line hline, ih hlines]
    rfl

theorem textOfLines_concat (lines : List String) (last : String) :
    textOfLines (lines ++ [last]) = textOfLines lines ++ last ++ "\n" := by
  induction lines with
  | nil => simp [textOfLines]
  | cons line lines ih =>
    rw [← String.toList_inj] at ih ⊢
    rw [List.cons_append, textOfLines_cons, ih]
    simp [textOfLines_cons]

/-- Every text has lines. -/
theorem exists_hasLines (content : String) : ∃ lines, HasLines content lines := by
  have hsplit : ∀ cs : List Char, ∃ (lines : List String) (last : List Char),
      (∀ line ∈ lines, '\n' ∉ line.toList) ∧ '\n' ∉ last ∧
        cs = (textOfLines lines).toList ++ last := by
    intro cs
    induction cs with
    | nil => exact ⟨[], [], nofun, List.not_mem_nil, rfl⟩
    | cons c cs ih =>
      obtain ⟨lines, last, hlines, hlast, rfl⟩ := ih
      by_cases hc : c = '\n'
      · refine ⟨"" :: lines, last, List.forall_mem_cons.2 ⟨List.not_mem_nil, hlines⟩, hlast, ?_⟩
        rw [textOfLines_cons, hc]
        rfl
      · -- the character goes to the front of the first line
        cases lines with
        | nil =>
          exact ⟨[], c :: last, nofun, List.not_mem_cons_of_ne_of_not_mem (Ne.symm hc) hlast, rfl⟩
        | cons line lines =>
          obtain ⟨hline, hrest⟩ := List.forall_mem_cons.1 hlines
          refine ⟨String.ofList (c :: line.toList) :: lines, last, ?_, hlast, ?_⟩
          · refine List.forall_mem_cons.2 ⟨?_, hrest⟩
            rw [String.toList_ofList]
            exact List.not_mem_cons_of_ne_of_not_mem (Ne.symm hc) hline
          · rw [textOfLines_cons, textOfLines_cons, String.toList_ofList]
            rfl
  obtain ⟨lines, last, hlines, hlast, hcontent⟩ := hsplit content.toList
  refine ⟨lines ++ [String.ofList last], ?_, .inr ?_⟩
  · refine List.forall_mem_append.2 ⟨hlines, List.forall_mem_singleton.2 ?_⟩
    rwa [String.toList_ofList]
  · rw [textOfLines_concat, ← String.toList_inj]
    simp [hcontent]

/-- What is read from a text that has lines. -/
theorem ignoreLines_eq {content : String} {lines : List String} (h : HasLines content lines) :
    ignoreLines content = ((lines.map fun line => trimBlank line.toList).filter namesPath).map
      fun line => String.ofList (normalizeChars line) := by
  obtain ⟨hlines, htext⟩ := h
  have hread : (trimmedLines content.toList).filter namesPath =
      (lines.map fun line => trimBlank line.toList).filter namesPath := by
    rcases htext with rfl | htext
    · have hall := trimmedLines_textOfLines hlines []
      rw [List.append_nil] at hall
      rw [hall, List.filter_append]
      exact List.append_nil _
    · rcases List.eq_nil_or_concat' lines with rfl | ⟨front, last, rfl⟩
      · exact absurd (congrArg String.toList htext) (by simp [textOfLines])
      · obtain ⟨hfront, hlast⟩ := List.forall_mem_append.1 hlines
        have hcontent : content = textOfLines front ++ last := by
          have hchars := congrArg String.toList (htext.trans (textOfLines_concat front last))
          rw [String.toList_append, String.toList_append] at hchars
          exact String.toList_inj.1 (List.append_cancel_right hchars)
        rw [hcontent, String.toList_append, trimmedLines_textOfLines hfront, List.filter_append,
          List.map_append, List.filter_append, filter_trimmedLines (hlast last List.mem_cons_self)]
        rfl
  exact congrArg _ hread

/-! ## Values and lines -/

/-- Where ignored paths come from: the values given one by one, and the text of the ignore file if
there is one. -/
structure IgnoreSource where
  given : List String
  content : Option String

/-- The paths that a source ignores. -/
def IgnoreSource.paths (s : IgnoreSource) : List String := ignoreSet s.given s.content

theorem namesPath_iff {line : String} : namesPath (trimBlank line.toList) = true ↔ NamesPath line := by
  simp [namesPath, NamesPath]

section Paths
variable {given : List String} {content : String} {lines : List String} {key : String}

theorem mem_paths_none :
    key ∈ IgnoreSource.paths ⟨given, none⟩ ↔ ∃ value ∈ given, normalize value = key := by
  simp [IgnoreSource.paths, ignoreSet]

theorem mem_ignoreLines (h : HasLines content lines) :
    key ∈ ignoreLines content ↔ ∃ line ∈ lines, NamesPath line ∧ normalize line = key := by
  have hform : ∀ line : String, String.ofList (normalizeChars (trimBlank line.toList)) =
      normalize line := by
    intro line
    rw [← normalize_ofList, String.ofList_toList]
  rw [ignoreLines_eq h]
  simp only [List.mem_map, List.mem_filter, exists_exists_and_eq_and, and_assoc, hform,
    namesPath_iff]

theorem mem_paths (h : HasLines content lines) :
    key ∈ IgnoreSource.paths ⟨given, some content⟩ ↔
      (∃ value ∈ given, normalize value = key) ∨
        ∃ line ∈ lines, NamesPath line ∧ normalize line = key := by
  have hsplit : key ∈ IgnoreSource.paths ⟨given, some content⟩ ↔
      (∃ value ∈ given, normalize value = key) ∨ key ∈ ignoreLines content := by
    simp [IgnoreSource.paths, ignoreSet]
  rw [hsplit, mem_ignoreLines h]

end Paths

/-! ## Rewritings -/

/-- Rewritings of the values and of the ignore file. -/
inductive IgnoreSource.Edit : IgnoreSource → IgnoreSource → Prop
  /-- The values are put into another order, or repeated. -/
  | values {given given' : List String} (content : Option String)
    (h : ∀ value, value ∈ given ↔ value ∈ given') : Edit ⟨given, content⟩ ⟨given', content⟩
  /-- The lines are put into another order, or repeated; or the end of the last one is written or
  left out. -/
  | lines {content content' : String} {lines lines' : List String} (given : List String)
    (hlines : HasLines content lines) (hlines' : HasLines content' lines')
    (h : ∀ line, line ∈ lines ↔ line ∈ lines') : Edit ⟨given, some content⟩ ⟨given, some content'⟩
  /-- Lines get a carriage return before their line feed, all of them or only some. -/
  | ends {content content' : String} {lines lines' : List String} (given : List String)
    (hlines : HasLines content lines) (hlines' : HasLines content' lines')
    (h : lines.Forall₂ (fun line line' => line' = line ∨ line' = line ++ "\r") lines') :
    Edit ⟨given, some content⟩ ⟨given, some content'⟩
  /-- A line is put in that names no path: it is blank, or a comment. -/
  | idle {content content' line : String} {before after : List String} (given : List String)
    (hlines : HasLines content (before ++ after))
    (hlines' : HasLines content' (before ++ line :: after)) (h : ¬NamesPath line) :
    Edit ⟨given, some content⟩ ⟨given, some content'⟩
  /-- A value becomes a line of its own. -/
  | moved {content content' value : String} {before after : List String} (first rest : List String)
    (hlines : HasLines content (before ++ after))
    (hlines' : HasLines content' (before ++ value :: after)) (h : NamesPath value) :
    Edit ⟨first ++ value :: rest, some content⟩ ⟨first ++ rest, some content'⟩
  /-- There is an empty file instead of none. -/
  | file (given : List String) : Edit ⟨given, none⟩ ⟨given, some ""⟩

theorem trimBlank_returned (line : String) :
    trimBlank (line ++ "\r").toList = trimBlank line.toList := by
  rw [String.toList_append]
  exact trimBlank_concat (by decide) line.toList

theorem returned_alike {line line' : String} (h : line' = line ∨ line' = line ++ "\r") :
    (NamesPath line ↔ NamesPath line') ∧ normalize line = normalize line' := by
  have htrim : trimBlank line.toList = trimBlank line'.toList := by
    rcases h with rfl | rfl
    · rfl
    · exact (trimBlank_returned line).symm
  refine ⟨by rw [NamesPath, NamesPath, htrim], ?_⟩
  rw [normalize, normalize, normalizeChars, normalizeChars, htrim]

theorem exists_mem_middle {α : Type} {p : α → Prop} (front back : List α) (x : α) :
    (∃ a ∈ front ++ x :: back, p a) ↔ p x ∨ ∃ a ∈ front ++ back, p a := by
  simp only [List.perm_middle.mem_iff, List.exists_mem_cons_iff]

/-- The step lemma: one rewriting leaves the ignored paths as they are. -/
theorem paths_of_edit {s s' : IgnoreSource} (h : s.Edit s') (key : String) :
    key ∈ s.paths ↔ key ∈ s'.paths := by
  cases h with
  | values content h =>
    cases content with
    | none => simp only [mem_paths_none, h]
    | some content =>
      obtain ⟨lines, hlines⟩ := exists_hasLines content
      simp only [mem_paths hlines, h]
  | lines given hlines hlines' h => simp only [mem_paths hlines, mem_paths hlines', h]
  | ends given hlines hlines' h =>
    rw [mem_paths hlines, mem_paths hlines']
    refine or_congr_right ?_
    clear hlines hlines'
    induction h with
    | nil => rfl
    | cons hline _ ih =>
      obtain ⟨hnames, hkey⟩ := returned_alike hline
      simp only [List.exists_mem_cons_iff, ih, hnames, hkey]
  | idle given hlines hlines' h =>
    rw [mem_paths hlines, mem_paths hlines']
    refine or_congr_right ?_
    rw [exists_mem_middle, or_iff_right fun hline => h hline.1]
  | moved first rest hlines hlines' h =>
    rw [mem_paths hlines, mem_paths hlines']
    rw [exists_mem_middle, exists_mem_middle, and_iff_right h, or_assoc, or_left_comm]
  | file given =>
    have hempty : HasLines "" [] := ⟨nofun, .inl rfl⟩
    rw [mem_paths_none, mem_paths hempty]
    simp

/-- The run lemma: any number of rewritings, in both directions. -/
theorem paths_of_edits {s s' : IgnoreSource} (h : Relation.EqvGen IgnoreSource.Edit s s')
    (key : String) : key ∈ s.paths ↔ key ∈ s'.paths := by
  induction h with
  | rel s s' h => exact paths_of_edit h key
  | refl s => rfl
  | symm s s' _ ih => exact ih.symm
  | trans s s' s'' _ _ first second => exact first.trans second

/-! ## What is ignored -/

/-- Whether options take their ignored paths from a source: they have its values, and the file that
they name holds its text. -/
def TreeOptions.HasSource (options : TreeOptions) (t : FileTree) (s : IgnoreSource) : Prop :=
  options.ignored = s.given ∧
    match s.content with
    | none => options.ignoreFile = none
    | some content => ∃ file, options.ignoreFile = some file ∧ t.readFile file = .ok (utf8 content)

/-- Whether ignored paths are those of a source: its values and its lines, in the form of keys. -/
structure IgnoreSource.IgnoresExactly (s : IgnoreSource) (ignored : List String) : Prop where
  values : s.content = none → ∀ key, key ∈ ignored ↔ ∃ value ∈ s.given, normalize value = key
  lines : ∀ content lines, s.content = some content → HasLines content lines → ∀ key,
    key ∈ ignored ↔ (∃ value ∈ s.given, normalize value = key) ∨
      ∃ line ∈ lines, NamesPath line ∧ normalize line = key

section Sources
variable {t : FileTree} {options : TreeOptions} {s : IgnoreSource}

theorem loadIgnored_source (h : options.HasSource t s) : loadIgnored t options = .ok s.paths := by
  obtain ⟨given, content⟩ := s
  obtain ⟨hgiven, hfile⟩ := h
  dsimp only at hgiven hfile
  cases content with
  | none => simp only [loadIgnored, hfile, hgiven, IgnoreSource.paths]
  | some content =>
    obtain ⟨file, hfile, hread⟩ := hfile
    simp only [loadIgnored, hfile, readText_eq_ok.2 hread, hgiven, IgnoreSource.paths]

theorem ignoresExactly_paths (s : IgnoreSource) : s.IgnoresExactly s.paths := by
  obtain ⟨given, content⟩ := s
  constructor
  · rintro rfl key
    exact mem_paths_none
  · rintro content lines rfl hlines key
    exact mem_paths hlines

/-- What is ignored counts only as far as it has the form of a key. -/
theorem digestTree_congr {ignored ignored' : List String}
    (h : ∀ key, IsKey key → (key ∈ ignored ↔ key ∈ ignored')) (t : FileTree) (root : Path)
    (options : TreeOptions) :
    digestTree t root options ignored = digestTree t root options ignored' := by
  have hrun : (Digester.new options.config).digestDirectory t root ignored .counting 0 =
      (Digester.new options.config).digestDirectory t root ignored' .counting 0 := by
    unfold Digester.digestDirectory
    cases hk : collectKeys t (Digester.new options.config).config.followLinks root with
    | error e => rfl
    | ok keys =>
      have hlive : liveKeys ignored keys = liveKeys ignored' keys := by
        refine List.filter_congr fun key hkey => ?_
        rw [Bool.not_inj_iff, Bool.eq_iff_iff, List.contains_iff_mem, List.contains_iff_mem]
        exact h key (isKey_of_collectKeys hk key hkey)
      dsimp only
      rw [digestKeys_live, hlive, ← digestKeys_live]
  unfold digestTree
  rw [hrun]

end Sources

/-- The ignored paths are the values and the lines that name a path, in the form of keys. They stay
the same if values or lines are put into another order or repeated, line ends are converted, blank
lines, comments or a last line end come or go, and values become lines or the other way round. -/
theorem ignored_alike :
    (∀ content, ∃ lines, HasLines content lines) ∧
    ∀ (t : FileTree) (options : TreeOptions) (s : IgnoreSource), options.HasSource t s →
      ∃ ignored, loadIgnored t options = .ok ignored ∧ s.IgnoresExactly ignored ∧
        ∀ (t' : FileTree) (options' : TreeOptions) (s' : IgnoreSource), options'.HasSource t' s' →
          Relation.EqvGen IgnoreSource.Edit s s' →
          ∃ ignored', loadIgnored t' options' = .ok ignored' ∧
            (∀ key, key ∈ ignored ↔ key ∈ ignored') ∧
            ∀ (u : FileTree) (root : Path) (o : TreeOptions),
              digestTree u root o ignored = digestTree u root o ignored' := by
  refine ⟨exists_hasLines, fun t options s hs => ?_⟩
  refine ⟨s.paths, loadIgnored_source hs, ignoresExactly_paths s, fun t' options' s' hs' hedits => ?_⟩
  have hsame := paths_of_edits hedits
  exact ⟨s'.paths, loadIgnored_source hs', hsame, digestTree_congr fun key _ => hsame key⟩

/-- A tree with a comment in its ignore file. -/
def commentedTree : FileTree :=
  .ofTable [([utf8 "i"], .file (utf8 "# c\n"))] (by decide) (by decide) (by decide)

/-- The same with a path instead, on a line that ends in a carriage return and a line feed. -/
def listedTree : FileTree :=
  .ofTable [([utf8 "i"], .file (utf8 "./b/\r\n"))] (by decide) (by decide) (by decide)

theorem ignored_alike_sample :
    ∃ ignored ignored',
      loadIgnored commentedTree { ignored := ["./b/", "a"], ignoreFile := some "i" } =
        .ok ignored ∧
      loadIgnored listedTree { ignored := ["a"], ignoreFile := some "i" } = .ok ignored' ∧
      "b" ∈ ignored ∧ ∀ key, key ∈ ignored ↔ key ∈ ignored' := by
  have hcommented : HasLines "# c\n" ["# c"] := ⟨by decide, .inl (by decide)⟩
  have hboth : HasLines "# c\n./b/\n" ["# c", "./b/"] := ⟨by decide, .inl (by decide)⟩
  have hlisted : HasLines "./b/\n" ["./b/"] := ⟨by decide, .inl (by decide)⟩
  have hreturned : HasLines "./b/\r\n" ["./b/\r"] := ⟨by decide, .inl (by decide)⟩
  have hnames : NamesPath "./b/" := by decide
  have hidle : ¬NamesPath "# c" := by decide
  -- the value becomes a line, the comment goes, and the line end is converted
  have hmoved : IgnoreSource.Edit ⟨["./b/", "a"], some "# c\n"⟩ ⟨["a"], some "# c\n./b/\n"⟩ :=
    @IgnoreSource.Edit.moved _ _ "./b/" ["# c"] [] [] ["a"] hcommented hboth hnames
  have hgone : IgnoreSource.Edit ⟨["a"], some "./b/\n"⟩ ⟨["a"], some "# c\n./b/\n"⟩ :=
    @IgnoreSource.Edit.idle _ _ "# c" [] ["./b/"] ["a"] hlisted hboth hidle
  have hended : IgnoreSource.Edit ⟨["a"], some "./b/\n"⟩ ⟨["a"], some "./b/\r\n"⟩ :=
    .ends ["a"] hlisted hreturned (.cons (.inr rfl) .nil)
  have hedits : Relation.EqvGen IgnoreSource.Edit ⟨["./b/", "a"], some "# c\n"⟩
      ⟨["a"], some "./b/\r\n"⟩ :=
    (((Relation.EqvGen.rel _ _ hmoved).trans _ _ _ ((Relation.EqvGen.rel _ _ hgone).symm)).trans
      _ _ _ (.rel _ _ hended))
  obtain ⟨ignored, hload, hexact, halike⟩ := ignored_alike.2 commentedTree
    { ignored := ["./b/", "a"], ignoreFile := some "i" } ⟨["./b/", "a"], some "# c\n"⟩
    ⟨rfl, "i", rfl, by decide +kernel⟩
  obtain ⟨ignored', hload', hsame, -⟩ := halike listedTree
    { ignored := ["a"], ignoreFile := some "i" } ⟨["a"], some "./b/\r\n"⟩
    ⟨rfl, "i", rfl, by decide +kernel⟩ hedits
  have hwritten : "b" ∈ ignored := (hexact.lines "# c\n" ["# c"] rfl hcommented "b").2
    (.inl ⟨"./b/", List.mem_cons_self, by decide⟩)
  exact ⟨ignored, ignored', hload, hload', hwritten, hsame⟩

end DirDigest
