import DirDigest.Report.Format
import DirDigest.Proofs.Report.Numeral
import DirDigest.Proofs.Text

/-! # Lines read back

* `linesOfText`: the lines of a text; `linesOfText_textOfLines` undoes the writing of lines.
* `entriesOfText?`: keys and digests, read from lines of digests.
* `pathsMarked`: the paths that stand behind a sign at the head of a line.
* `entriesOfText?_map`, `pathsMarked_diff`: the reports to read give back the entries of a map and
  the paths of a difference, if no path has a line feed.
-/

set_option autoImplicit false

namespace DirDigest

/-! ## Lines -/

/-- The lines of a text in which each line has its end. -/
def linesOfText (s : String) : List String :=
  (s.toList.splitOn '\n').dropLast.map String.ofList

theorem splitOn_line {line : List Char} (h : '\n' ∉ line) (rest : List Char) :
    (line ++ '\n' :: rest).splitOn '\n' = line :: rest.splitOn '\n' := by
  rw [List.splitOn, List.splitOnP_append_cons _ _ (by simp)]
  have hline := List.splitOn_eq_singleton h
  rw [List.splitOn] at hline
  rw [hline]
  rfl

theorem linesOfText_textOfLines {lines : List String} (h : ∀ l ∈ lines, '\n' ∉ l.toList) :
    linesOfText (textOfLines lines) = lines := by
  have hsplit : (textOfLines lines).toList.splitOn '\n' = lines.map String.toList ++ [[]] := by
    induction lines with
    | nil => simp [textOfLines]
    | cons line lines ih =>
      have htext : (textOfLines (line :: lines)).toList =
          line.toList ++ '\n' :: (textOfLines lines).toList := by
        simp [textOfLines, String.join_cons]
      rw [htext, splitOn_line (h line List.mem_cons_self),
        ih fun l hl => h l (List.mem_cons_of_mem _ hl)]
      rfl
  rw [linesOfText, hsplit, List.dropLast_concat, List.map_map]
  exact List.map_id'' (fun l => String.ofList_toList) lines

/-! ## Lines of digests -/

theorem mapM_map {α β γ : Type} {read : β → Option γ} {write : α → β} {f : α → γ}
    (h : ∀ a, read (write a) = some (f a)) (l : List α) :
    (l.map write).mapM read = some (l.map f) := by
  rw [List.mapM_map, show read ∘ write = fun a => pure (f a) from funext h]
  exact List.mapM_pure

/-- What stands before the first two blanks of a line, and what stands behind them. -/
def atTwoBlanks? : List Char → Option (List Char × List Char)
  | ' ' :: ' ' :: rest => some ([], rest)
  | c :: rest => (atTwoBlanks? rest).map fun p => (c :: p.1, p.2)
  | [] => none

/-- The digest that a number stands for, if it has room in one. -/
def digest? (n : Nat) : Option Digest := if n < UInt64.size then some (UInt64.ofNat n) else none

/-- The key and the digest of a line of digests. -/
def entryOfLine? (line : String) : Option (String × Digest) := do
  let (hex, path) ← atTwoBlanks? line.toList
  let n ← number? 16 hex
  let d ← digest? n
  some (String.ofList path, d)

/-- The entries of a text of lines of digests, in their order. -/
def entriesOfText? (s : String) : Option (List (String × Digest)) :=
  (linesOfText s).mapM entryOfLine?

theorem digest?_toNat (d : Digest) : digest? d.toNat = some d := by
  rw [digest?, if_pos d.toNat_lt, UInt64.ofNat_toNat]

theorem atTwoBlanks?_append {word : List Char} (h : ' ' ∉ word) (rest : List Char) :
    atTwoBlanks? (word ++ ' ' :: ' ' :: rest) = some (word, rest) := by
  induction word with
  | nil => rfl
  | cons c word ih =>
    have hc : c ≠ ' ' := (List.ne_of_not_mem_cons h).symm
    have hword := ih (List.not_mem_of_not_mem_cons h)
    rw [List.cons_append, atTwoBlanks?, hword]
    · rfl
    · exact fun _ heq => absurd heq hc

theorem entryOfLine?_digestLine (d : Digest) (key : String) :
    entryOfLine? (Style.digestLine d key) = some (key, d) := by
  have hblank : ' ' ∉ (hexDigest d).toList := notMem_hexDigest d rfl
  have hline : (Style.digestLine d key).toList =
      (hexDigest d).toList ++ ' ' :: ' ' :: key.toList := by
    simp [Style.digestLine]
  simp [entryOfLine?, hline, atTwoBlanks?_append hblank, number?_hexDigest, digest?_toNat]

theorem entriesOfText?_digestLines {l : List (String × Digest)}
    (h : ∀ e ∈ l, '\n' ∉ e.1.toList) :
    entriesOfText? (textOfLines (l.map fun e => Style.digestLine e.2 e.1)) = some l := by
  have hlines : ∀ line ∈ l.map fun e => Style.digestLine e.2 e.1, '\n' ∉ line.toList := by
    intro line hline
    obtain ⟨e, he, rfl⟩ := List.mem_map.1 hline
    simp [Style.digestLine, notMem_hexDigest e.2 (show digitValue? '\n' = none from rfl), h e he]
  have hread := mapM_map (f := id) (fun e : String × Digest => entryOfLine?_digestLine e.2 e.1) l
  rw [entriesOfText?, linesOfText_textOfLines hlines, hread, List.map_id]

/-- A digest map is read back from its report, in the same order. -/
theorem entriesOfText?_map {style : Style} (hverbose : style.verbose = false) (root : Path)
    {m : DigestMap} (h : ∀ k ∈ m.keys, '\n' ∉ k.toList) :
    entriesOfText? ((Format.human style).map root m) = some m.entries := by
  have hlines : style.mapLines root m = m.entries.map fun e => Style.digestLine e.2 e.1 := by
    simp [Style.mapLines, hverbose]
  rw [Format.map, hlines]
  exact entriesOfText?_digestLines fun e he => h e.1 (List.mem_map_of_mem he)

/-! ## Marked lines -/

/-- The path of a line, if a sign marks it. -/
def pathMarked? (sign : Char) (line : String) : Option String :=
  (afterLeading? [sign, ' '] line.toList).map String.ofList

/-- The paths of a text that a sign marks. -/
def pathsMarked (sign : Char) (s : String) : List String :=
  (linesOfText s).filterMap (pathMarked? sign)

/-- The paths of a difference that get a mark. -/
def Difference.pathsOf (d : Difference) : Style.Mark → List String
  | .added => d.added
  | .removed => d.removed
  | .changed => d.changed.map Change.path

section Marks
variable {style : Style} (hcolors : style.colors = false)
include hcolors

theorem marked_toList (m : Style.Mark) (path : String) :
    (style.marked m path).toList = m.sign.toList ++ ' ' :: path.toList := by
  simp [Style.marked, Style.paint, hcolors]

theorem pathMarked?_marked (m : Style.Mark) (sign : Char) (path : String) :
    pathMarked? sign (style.marked m path) = if m.sign.toList = [sign] then some path else none := by
  obtain ⟨c, hc⟩ : ∃ c, m.sign.toList = [c] := by cases m <;> exact ⟨_, rfl⟩
  rw [pathMarked?, marked_toList hcolors, hc]
  by_cases h : sign = c
  · simp [afterLeading?, h]
  · simp [afterLeading?, h, Ne.symm h]

theorem filterMap_marked (m : Style.Mark) (sign : Char) (paths : List String) :
    (paths.map (style.marked m)).filterMap (pathMarked? sign) =
      if m.sign.toList = [sign] then paths else [] := by
  have hread : pathMarked? sign ∘ style.marked m =
      fun path => if m.sign.toList = [sign] then some path else none :=
    funext (pathMarked?_marked hcolors m sign)
  rw [List.filterMap_map, hread]
  split
  · exact List.filterMap_some
  · exact List.filterMap_eq_nil_iff.2 fun _ _ => rfl

theorem newline_notMem_marked {m : Style.Mark} {path : String} (h : '\n' ∉ path.toList) :
    '\n' ∉ (style.marked m path).toList := by
  have hsign : '\n' ∉ m.sign.toList := by cases m <;> decide
  simp [marked_toList hcolors, hsign, h]

end Marks

/-! ## Differences -/

section Differences
variable {style : Style} {old new : Path} {d : Difference}

/-- The lines behind the marked ones. -/
def Style.summary (style : Style) (old new : Path) (d : Difference) : List String :=
  if style.quiet then [] else [style.diffHead old new d, diffCounts d]

theorem pathMarked?_eq_none {sign : Char} {line : String}
    (h : ∀ c ∈ line.toList.head?, c ≠ sign) : pathMarked? sign line = none := by
  cases hline : line.toList with
  | nil => simp [pathMarked?, hline, afterLeading?]
  | cons c rest =>
    have hc : sign ≠ c := (h c (by simp [hline])).symm
    simp [pathMarked?, hline, afterLeading?, hc]

/-- The lines behind the marked ones are no more than lines, and begin with a letter or a blank. -/
theorem summary_line (hcolors : style.colors = false) (hold : lineFeed ∉ old.bytes)
    (hnew : lineFeed ∉ new.bytes) {line : String} (h : line ∈ style.summary old new d) :
    '\n' ∉ line.toList ∧ ∀ c ∈ line.toList.head?, c = 'N' ∨ c = ' ' := by
  have hgrouped := fun n => notMem_grouped (show '\n' ≠ ',' by decide) rfl n
  unfold Style.summary at h
  split at h
  · cases h
  · rcases List.mem_cons.1 h with rfl | h
    · unfold Style.diffHead
      split
      · simp [hcolors, newline_notMem_display hold, newline_notMem_display hnew]
      · simp
    · rw [List.mem_singleton.1 h]
      simp [Style.diffCounts, hgrouped]

theorem diffLines_eq (hverbose : style.verbose = false) :
    style.diffLines old new d = (d.pathsOf .added).map (style.marked .added) ++
      (d.pathsOf .removed).map (style.marked .removed) ++
      (d.pathsOf .changed).map (style.marked .changed) ++ style.summary old new d := by
  simp [Style.diffLines, Style.summary, Style.changeText, hverbose, Difference.pathsOf]

/-- The paths of a difference are read back from its report by the signs of their marks. -/
theorem pathsMarked_diff (hverbose : style.verbose = false) (hcolors : style.colors = false)
    (hold : lineFeed ∉ old.bytes) (hnew : lineFeed ∉ new.bytes)
    (hpaths : ∀ m, ∀ p ∈ d.pathsOf m, '\n' ∉ p.toList) (m : Style.Mark) {sign : Char}
    (hsign : m.sign.toList = [sign]) :
    pathsMarked sign ((Format.human style).diff old new d) = d.pathsOf m := by
  have hmarked : ∀ {m : Style.Mark} {line : String}, line ∈ (d.pathsOf m).map (style.marked m) →
      '\n' ∉ line.toList := by
    intro m line hline
    obtain ⟨path, hpath, rfl⟩ := List.mem_map.1 hline
    exact newline_notMem_marked hcolors (hpaths m path hpath)
  have hlines : ∀ line ∈ style.diffLines old new d, '\n' ∉ line.toList := by
    rw [diffLines_eq hverbose]
    intro line hline
    simp only [List.mem_append] at hline
    rcases hline with ((h | h) | h) | h
    · exact hmarked h
    · exact hmarked h
    · exact hmarked h
    · exact (summary_line hcolors hold hnew h).1
  have hfirst : sign ≠ 'N' ∧ sign ≠ ' ' := by
    cases m <;> obtain rfl := List.cons.inj hsign |>.1 <;> decide
  have hsummary : (style.summary old new d).filterMap (pathMarked? sign) = [] := by
    refine List.filterMap_eq_nil_iff.2 fun line hline => pathMarked?_eq_none fun c hc => ?_
    rcases (summary_line hcolors hold hnew hline).2 c hc with rfl | rfl
    · exact hfirst.1.symm
    · exact hfirst.2.symm
  rw [pathsMarked, Format.diff, linesOfText_textOfLines hlines, diffLines_eq hverbose]
  simp only [List.filterMap_append, filterMap_marked hcolors, hsummary, List.append_nil, ← hsign]
  cases m <;> simp [Style.Mark.sign]

end Differences

end DirDigest
