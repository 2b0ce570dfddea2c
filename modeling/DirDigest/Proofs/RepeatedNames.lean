import DirDigest.Proofs.ArchiveDigest
import DirDigest.Proofs.Zip.RoundTrip
import Mathlib.Data.List.Flatten

/-! # Archives that list a name more than once

Opening an archive merges the entries of one name: the last one takes the place of the first one.
The stable sort then has nothing to keep in order, and what came before the last entry of a name is
not part of the digest.

* `lastListed`, `mem_lastListed`: the last entry of each name.
* `mergeEntries_perm`: an open archive has the last entries that were listed.
* `listedFiles`, `namesakes_sort`: the files of a listing in order of names, those of one name in the
  order of the listing.
* `fileEntries_merged`: the files that are digested are the last ones of each name.
* `Superseded`, `flatMap_lastListed_iff`: when nothing is left out.
* `repeated_names_digested`: the digest of any listing.
-/

set_option autoImplicit false

namespace DirDigest

open Zip (Archive Entry Lists)

namespace Zip

/-! ## The last entry of each name -/

/-- The entries that no later one of the same name follows. -/
def lastListed : List Entry → List Entry
  | [] => []
  | e :: rest => if e.name ∈ rest.map Entry.name then lastListed rest else e :: lastListed rest

/-- The entries of a listing with a given name. -/
def namesakes (listed : List Entry) (name : String) : List Entry :=
  listed.filter fun e => e.name == name

theorem lastListed_sublist (listed : List Entry) : (lastListed listed).Sublist listed := by
  induction listed with
  | nil => exact .slnil
  | cons e rest ih =>
    unfold lastListed
    split
    · exact ih.cons e
    · exact ih.cons_cons e

theorem lastListed_nodup (listed : List Entry) : ((lastListed listed).map Entry.name).Nodup := by
  induction listed with
  | nil => exact List.nodup_nil
  | cons e rest ih =>
    unfold lastListed
    split
    · exact ih
    · rename_i hnew
      rw [List.map_cons, List.nodup_cons]
      exact ⟨fun hold => hnew (((lastListed_sublist rest).map Entry.name).subset hold), ih⟩

theorem namesakes_eq_nil {listed : List Entry} {name : String} :
    namesakes listed name = [] ↔ name ∉ listed.map Entry.name := by
  rw [namesakes, List.filter_eq_nil_iff]
  simp only [beq_iff_eq, List.mem_map, not_exists, not_and]

theorem namesakes_self {e : Entry} {name : String} (h : e.name = name) (rest : List Entry) :
    namesakes (e :: rest) name = e :: namesakes rest name :=
  List.filter_cons_of_pos (beq_iff_eq.2 h)

theorem namesakes_other {e : Entry} {name : String} (h : e.name ≠ name) (rest : List Entry) :
    namesakes (e :: rest) name = namesakes rest name :=
  List.filter_cons_of_neg fun heq => h (beq_iff_eq.1 heq)

theorem mem_lastListed {listed : List Entry} {e : Entry} :
    e ∈ lastListed listed ↔ (namesakes listed e.name).getLast? = some e := by
  induction listed with
  | nil => simp [lastListed, namesakes]
  | cons x rest ih =>
    unfold lastListed
    by_cases hx : x.name = e.name
    · rw [namesakes_self hx]
      by_cases hagain : x.name ∈ rest.map Entry.name
      · have hsome : namesakes rest e.name ≠ [] := fun hnil => namesakes_eq_nil.1 hnil (hx ▸ hagain)
        rw [if_pos hagain, ih, List.getLast?_cons_of_ne_nil hsome]
      · have hnil : namesakes rest e.name = [] := namesakes_eq_nil.2 (hx ▸ hagain)
        rw [if_neg hagain, List.mem_cons, ih, hnil]
        simp [eq_comm]
    · have hne : e ≠ x := fun heq => hx (heq ▸ rfl)
      rw [namesakes_other hx, ← ih]
      split
      · rfl
      · rw [List.mem_cons, or_iff_right hne]

/-! ## Merging -/

theorem mem_addEntry {entries : List Entry} {e x : Entry} :
    e ∈ addEntry entries x ↔ e = x ∨ e ∈ entries ∧ e.name ≠ x.name := by
  unfold addEntry
  split
  · rename_i hany
    obtain ⟨old, hold, hname⟩ := List.any_eq_true.1 hany
    rw [List.mem_map]
    constructor
    · rintro ⟨f, hf, rfl⟩
      split
      · exact .inl rfl
      · rename_i hne
        exact .inr ⟨hf, fun heq => hne (beq_iff_eq.2 heq)⟩
    · rintro (rfl | ⟨he, hne⟩)
      · exact ⟨old, hold, if_pos hname⟩
      · exact ⟨e, he, if_neg fun heq => hne (beq_iff_eq.1 heq)⟩
  · rename_i hnone
    have hold : ∀ f ∈ entries, f.name ≠ x.name := fun f hf heq =>
      hnone (List.any_eq_true.2 ⟨f, hf, beq_iff_eq.2 heq⟩)
    rw [List.mem_append, List.mem_singleton]
    constructor
    · rintro (he | rfl)
      · exact .inr ⟨he, hold e he⟩
      · exact .inl rfl
    · rintro (rfl | ⟨he, -⟩)
      · exact .inr rfl
      · exact .inl he

theorem mem_foldl_addEntry {listed entries : List Entry} {e : Entry} :
    e ∈ listed.foldl addEntry entries ↔
      e ∈ entries ∧ e.name ∉ listed.map Entry.name ∨ e ∈ lastListed listed := by
  induction listed generalizing entries with
  | nil => simp [lastListed]
  | cons x rest ih =>
    rw [List.foldl_cons, ih, mem_addEntry, lastListed, List.map_cons, List.mem_cons, not_or]
    by_cases hx : e = x
    · subst hx
      by_cases hagain : e.name ∈ rest.map Entry.name
      · simp [hagain]
      · simp [hagain]
    · have hlast : e ∈ (if x.name ∈ rest.map Entry.name then lastListed rest
          else x :: lastListed rest) ↔ e ∈ lastListed rest := by
        split
        · rfl
        · rw [List.mem_cons, or_iff_right hx]
      rw [hlast, or_iff_right hx, and_assoc]

/-- Merging keeps the last entry of each name, in the place of the first one. -/
theorem mergeEntries_perm (listed : List Entry) : (mergeEntries listed).Perm (lastListed listed) := by
  rw [List.perm_ext_iff_of_nodup (mergeEntries_nodup listed).of_map (lastListed_nodup listed).of_map]
  intro e
  rw [mergeEntries, mem_foldl_addEntry]
  simp

end Zip

open Zip (lastListed namesakes mergeEntries)

/-! ## Files in order -/

/-- The files of a listing in byte order of their names. -/
def listedFiles (listed : List Entry) : List Entry :=
  (listed.filter fun e => !e.isDirectory).mergeSort Entry.notAfter

theorem listedFiles_perm (listed : List Entry) :
    (listedFiles listed).Perm (listed.filter fun e => !e.isDirectory) :=
  List.mergeSort_perm _ _

theorem mem_listedFiles {listed : List Entry} {e : Entry} :
    e ∈ listedFiles listed ↔ e ∈ listed ∧ e.isDirectory = false := by
  rw [(listedFiles_perm listed).mem_iff, List.mem_filter, Bool.not_eq_true']

/-- Sorting keeps the order of the entries of one name. -/
theorem namesakes_sort (entries : List Entry) (name : String) :
    namesakes (entries.mergeSort Entry.notAfter) name = namesakes entries name := by
  have hname : ∀ e ∈ namesakes entries name, e.name = name := by
    intro e he
    exact beq_iff_eq.1 (List.mem_filter.1 he).2
  have hequal : (namesakes entries name).Pairwise fun e f => e.notAfter f = true := by
    apply List.pairwise_of_forall_mem_list
    intro e he f hf
    simp [Entry.notAfter, hname e he, hname f hf]
  have hstable : (namesakes entries name).Sublist (entries.mergeSort Entry.notAfter) :=
    List.sublist_mergeSort (keyLe_trans fun e : Entry => utf8 e.name)
      (keyLe_total fun e : Entry => utf8 e.name) hequal List.filter_sublist
  have hkept : (namesakes entries name).Sublist
      (namesakes (entries.mergeSort Entry.notAfter) name) := by
    have h := hstable.filter fun e => e.name == name
    simpa only [namesakes, List.filter_filter, Bool.and_self] using h
  exact (hkept.eq_of_length ((List.mergeSort_perm entries _).filter _).length_eq.symm).symm

theorem namesakes_listedFiles {listed : List Entry} {e : Entry} (h : e.isDirectory = false) :
    namesakes (listedFiles listed) e.name = namesakes listed e.name := by
  rw [listedFiles, namesakes_sort, namesakes, namesakes, List.filter_filter]
  apply List.filter_congr
  intro f _
  -- whether an entry is a directory is told by its name
  by_cases hf : f.name = e.name
  · have hfile : f.isDirectory = false := by
      rw [Entry.isDirectory, hf]
      exact h
    simp [hfile]
  · simp [hf]

theorem fileEntries_merged (data : Array UInt8) (listed : List Entry) :
    fileEntries ⟨data, mergeEntries listed⟩ = lastListed (listedFiles listed) := by
  have hnames := Zip.lastListed_nodup (listedFiles listed)
  have hnodup : ((lastListed (listedFiles listed)).map fun e => utf8 e.name).Nodup := by
    have h := nodup_utf8 hnames
    rwa [List.map_map] at h
  have hle := List.pairwise_mergeSort (keyLe_trans fun e : Entry => utf8 e.name)
    (keyLe_total fun e : Entry => utf8 e.name) (listed.filter fun e => !e.isDirectory)
  have hsorted := strict_of_le (fun e : Entry => utf8 e.name)
    (hle.sublist (Zip.lastListed_sublist (listedFiles listed))) hnodup
  have hfiles := fileEntries_sorted (a := ⟨data, mergeEntries listed⟩)
    (Zip.mergeEntries_nodup listed)
  have hdistinct : (fileEntries ⟨data, mergeEntries listed⟩).Nodup :=
    (fileEntries_perm _).nodup_iff.2 ((Zip.mergeEntries_nodup listed).of_map.filter _)
  refine eq_of_strict_perm (fun e : Entry => utf8 e.name) ?_ hfiles hsorted
  rw [List.perm_ext_iff_of_nodup hdistinct hnames.of_map]
  intro e
  rw [mem_fileEntries, (Zip.mergeEntries_perm listed).mem_iff, Zip.mem_lastListed]
  constructor
  · rintro ⟨hlast, hfile⟩
    rw [Zip.mem_lastListed, namesakes_listedFiles hfile]
    exact hlast
  · intro he
    obtain ⟨-, hfile⟩ := mem_listedFiles.1 ((Zip.lastListed_sublist _).subset he)
    rw [Zip.mem_lastListed, namesakes_listedFiles hfile] at he
    exact ⟨he, hfile⟩

/-! ## What is left out -/

/-- Whether an entry of a listing is followed by one of the same name. -/
def Superseded (listed : List Entry) (e : Entry) : Prop :=
  ∃ before after, listed = before ++ e :: after ∧ e.name ∈ after.map Entry.name

theorem superseded_cons {x e : Entry} {rest : List Entry} :
    Superseded (x :: rest) e ↔ e = x ∧ x.name ∈ rest.map Entry.name ∨ Superseded rest e := by
  constructor
  · rintro ⟨before, after, hsplit, hname⟩
    cases before with
    | nil =>
      cases hsplit
      exact .inl ⟨rfl, hname⟩
    | cons y before =>
      cases hsplit
      exact .inr ⟨before, after, rfl, hname⟩
  · rintro (⟨rfl, hname⟩ | ⟨before, after, rfl, hname⟩)
    · exact ⟨[], rest, rfl, hname⟩
    · exact ⟨x :: before, after, rfl, hname⟩

theorem superseded_iff {listed : List Entry} {e : Entry} :
    Superseded listed e ↔ e ∈ (namesakes listed e.name).dropLast := by
  induction listed with
  | nil => simp [Superseded, namesakes]
  | cons x rest ih =>
    rw [superseded_cons, ih]
    by_cases hx : x.name = e.name
    · rw [Zip.namesakes_self hx]
      by_cases hagain : x.name ∈ rest.map Entry.name
      · have hsome : namesakes rest e.name ≠ [] := fun hnil =>
          Zip.namesakes_eq_nil.1 hnil (hx ▸ hagain)
        rw [List.dropLast_cons_of_ne_nil hsome, List.mem_cons, and_iff_left hagain]
      · have hnil : namesakes rest e.name = [] := Zip.namesakes_eq_nil.2 (hx ▸ hagain)
        simp [hnil, hagain]
    · have hne : ¬(e = x ∧ x.name ∈ rest.map Entry.name) := fun h => hx (h.1 ▸ rfl)
      rw [Zip.namesakes_other hx, or_iff_right hne]

theorem superseded_listedFiles {listed : List Entry} {e : Entry} :
    Superseded (listedFiles listed) e ↔ e.isDirectory = false ∧ Superseded listed e := by
  constructor
  · intro h
    have hmem : e ∈ listedFiles listed := by
      obtain ⟨before, after, hsplit, -⟩ := h
      rw [hsplit]
      simp
    obtain ⟨-, hfile⟩ := mem_listedFiles.1 hmem
    rw [superseded_iff, namesakes_listedFiles hfile, ← superseded_iff] at h
    exact ⟨hfile, h⟩
  · rintro ⟨hfile, h⟩
    rw [superseded_iff, namesakes_listedFiles hfile, ← superseded_iff]
    exact h

theorem flatMap_lastListed_iff (content : Entry → Bytes) (listed : List Entry) :
    (lastListed listed).flatMap content = listed.flatMap content ↔
      ∀ e, Superseded listed e → content e = [] := by
  induction listed with
  | nil => simp [lastListed, Superseded]
  | cons x rest ih =>
    have hsplit : (∀ e, Superseded (x :: rest) e → content e = []) ↔
        (x.name ∈ rest.map Entry.name → content x = []) ∧
          ∀ e, Superseded rest e → content e = [] := by
      simp only [superseded_cons, or_imp, forall_and, and_imp, forall_eq]
    rw [hsplit, ← ih, lastListed, List.flatMap_cons]
    by_cases hagain : x.name ∈ rest.map Entry.name
    · rw [if_pos hagain, imp_iff_right hagain]
      constructor
      · intro heq
        -- what is kept is no longer than the rest, so there is no room for the content of `x`
        have hkept := ((Zip.lastListed_sublist rest).flatMap content).length_le
        have hlength := congrArg List.length heq
        rw [List.length_append] at hlength
        have hempty : content x = [] := List.eq_nil_of_length_eq_zero (by omega)
        rw [hempty, List.nil_append] at heq
        exact ⟨hempty, heq⟩
      · rintro ⟨hempty, heq⟩
        rw [hempty, List.nil_append, heq]
    · have hnone : (x.name ∈ rest.map Entry.name → content x = []) := fun h => absurd h hagain
      rw [if_neg hagain, List.flatMap_cons, List.append_cancel_left_eq, and_iff_right hnone]

/-! ## The digest -/

/-- What becomes of a listing. -/
structure KeepsLast (listed : List Entry) (a : Archive) : Prop where
  names : (a.entries.map Entry.name).Nodup
  /-- Of the entries with one name the last one stays. -/
  entries : ∀ e, e ∈ a.entries ↔ (namesakes listed e.name).getLast? = some e
  /-- The digest is that of the files that stay; whether the others can be read does not count. -/
  digest : ∀ (content : Entry → Bytes) (buffer : ReadBuffer), 0 < buffer.capacity →
    (∀ e ∈ a.entries, a.Locates e) →
    (∀ e ∈ a.entries, e.isDirectory = false → a.content e = .ok (content e)) →
    (digestArchive a buffer).result =
      .ok (digestBytes ((lastListed (listedFiles listed)).flatMap content))
  /-- They hold the content of all files exactly if those that are followed by one of the same name
  are empty. -/
  complete : ∀ content : Entry → Bytes,
    (lastListed (listedFiles listed)).flatMap content = (listedFiles listed).flatMap content ↔
      ∀ e, e.isDirectory = false → Superseded listed e → content e = []

theorem keepsLast_merged (data : Array UInt8) (listed : List Entry) :
    KeepsLast listed ⟨data, mergeEntries listed⟩ where
  names := Zip.mergeEntries_nodup listed
  entries e := by rw [(Zip.mergeEntries_perm listed).mem_iff, Zip.mem_lastListed]
  digest content buffer hb hl hr := by
    have hread : ∀ e ∈ fileEntries ⟨data, mergeEntries listed⟩,
        Archive.content ⟨data, mergeEntries listed⟩ e = .ok (content e) := by
      intro e he
      obtain ⟨hentry, hfile⟩ := mem_fileEntries.1 he
      exact hr e hentry hfile
    rw [digestArchive_ok hl hread hb, fileEntries_merged]
  complete content := by
    rw [flatMap_lastListed_iff]
    simp only [superseded_listedFiles, and_imp]

theorem KeepsLast.mem_listed {listed : List Entry} {a : Archive} (h : KeepsLast listed a)
    {e : Entry} (he : e ∈ a.entries) : e ∈ listed :=
  (List.mem_filter.1 (List.mem_of_getLast? ((h.entries e).1 he))).1

/-- Every byte string with a directory opens, and of the files of one name only the last one that
is listed is digested: the digest is that of all files, with those of one name in the order of the
directory, if no file with content is followed by one of the same name, and otherwise content is
left out. -/
theorem repeated_names_digested {bytes : Bytes} {listed : List Entry} (h : Lists bytes listed) :
    ∃ a, Archive.ofBytes bytes = .ok a ∧ KeepsLast listed a := by
  refine ⟨⟨bytes.toArray, mergeEntries listed⟩, Zip.opens_iff_lists.2 ⟨listed, h, rfl⟩, ?_⟩
  exact keepsLast_merged bytes.toArray listed

/-! ## Two files of one name -/

/-- Two files of one name. -/
def namesakeMembers : List Zip.Member :=
  [⟨"a", [1], [1], {}, Zip.fileBits⟩, ⟨"a", [2], [2], {}, Zip.fileBits⟩]

/-- The archive of the two files. -/
def namesakeBytes : Bytes := Zip.writeArchive namesakeMembers

/-- What its directory lists. -/
def namesakeEntries : List Entry := Zip.entriesFrom 0 namesakeMembers

/-- The content of the file that is stored first, and of the other one. -/
def namesakeContent (e : Entry) : Bytes := if e.offset = 0 then [1] else [2]

theorem namesake_fits : ∀ m ∈ namesakeMembers, m.Fits := by
  intro m hm
  have hplain : m.settings.compress = false ∧ m.stored = m.content := by
    revert m
    decide
  have hfields : (utf8 m.name).length < 0x10000 ∧ m.settings.date < 0x10000 ∧
      m.kindBits = Zip.fileBits := by
    revert m
    decide
  refine ⟨hfields.1, hfields.2.1, .inl hfields.2.2, ?_⟩
  rw [Zip.Settings.Stores, hplain.1, hplain.2]
  rfl

theorem namesake_lists : Lists namesakeBytes namesakeEntries :=
  Zip.written_lists rfl namesake_fits
    (Zip.classicLimits_of_length (by decide) (by decide) (by decide +kernel))

section Namesakes
variable {a : Archive} (hopen : Archive.ofBytes namesakeBytes = .ok a)
include hopen

theorem namesake_data : a.data = namesakeBytes.toArray := by
  obtain ⟨_, -, rfl⟩ := Zip.opens_iff_lists.1 hopen
  rfl

theorem namesake_contents : ∀ e ∈ namesakeEntries, a.content e = .ok (namesakeContent e) := by
  have hcontent : ∀ e ∈ namesakeEntries,
      ((⟨namesakeBytes.toArray, []⟩ : Archive).content e).toOption = some (namesakeContent e) := by
    decide +kernel
  intro e he
  have h := ok_of_toOption (hcontent e he)
  rw [← namesake_data hopen] at h
  exact h

end Namesakes

theorem listedFiles_namesakes : listedFiles namesakeEntries = namesakeEntries := by
  have hfiles : (namesakeEntries.filter fun e => !e.isDirectory) = namesakeEntries := by
    decide +kernel
  rw [listedFiles, hfiles]
  apply List.mergeSort_of_pairwise
  decide +kernel

theorem repeated_names_digested_sample : Lists namesakeBytes namesakeEntries ∧
    ∃ a, Archive.ofBytes namesakeBytes = .ok a ∧
      (digestArchive a ⟨1, []⟩).result = .ok (digestBytes [2]) := by
  have hbuffer : 0 < (⟨1, []⟩ : ReadBuffer).capacity := by decide
  obtain ⟨a, hopen, hkeeps⟩ := repeated_names_digested namesake_lists
  have hcontents : ∀ e ∈ a.entries, a.content e = .ok (namesakeContent e) := fun e he =>
    namesake_contents hopen e (hkeeps.mem_listed he)
  refine ⟨namesake_lists, a, hopen, ?_⟩
  rw [hkeeps.digest namesakeContent _ hbuffer
    (fun e he => Archive.locates_of_content (hcontents e he)) fun e he _ => hcontents e he,
    listedFiles_namesakes]
  have hlast : (lastListed namesakeEntries).flatMap namesakeContent = [2] := by decide +kernel
  rw [hlast]

/-- Files of one name are not all digested, although all of them can be read. -/
theorem namesakes_not_digested :
    ¬∀ (bytes : Bytes) (listed : List Entry) (a : Archive) (content : Entry → Bytes)
      (buffer : ReadBuffer), Lists bytes listed → Archive.ofBytes bytes = .ok a →
      (∀ e ∈ listed, a.Locates e) →
      (∀ e ∈ listed, e.isDirectory = false → a.content e = .ok (content e)) →
      0 < buffer.capacity →
      (digestArchive a buffer).result = .ok (digestBytes ((listedFiles listed).flatMap content)) := by
  intro hall
  have hbuffer : 0 < (⟨1, []⟩ : ReadBuffer).capacity := by decide
  have hopen := Zip.opens_iff_lists.2 ⟨_, namesake_lists, rfl⟩
  have hkeeps := keepsLast_merged namesakeBytes.toArray namesakeEntries
  have hcontents := namesake_contents hopen
  have hlocates : ∀ e ∈ namesakeEntries, Archive.Locates _ e := fun e he =>
    Archive.locates_of_content (hcontents e he)
  have hclaim := hall _ _ _ namesakeContent _ namesake_lists hopen hlocates
    (fun e he _ => hcontents e he) hbuffer
  rw [hkeeps.digest namesakeContent _ hbuffer (fun e he => hlocates e (hkeeps.mem_listed he))
    fun e he _ => hcontents e (hkeeps.mem_listed he), listedFiles_namesakes] at hclaim
  have hdiffer : digestBytes ((lastListed namesakeEntries).flatMap namesakeContent) ≠
      digestBytes (namesakeEntries.flatMap namesakeContent) := by decide +kernel
  exact hdiffer (Except.ok.inj hclaim)

end DirDigest
