import DirDigest.ArchiveDigest
import DirDigest.Proofs.ByteOrder
import DirDigest.Proofs.FirstFailure
import DirDigest.Proofs.Zip.Content
import DirDigest.Proofs.Zip.Opening
import DirDigest.Zip.Builder
import Mathlib.Tactic.Choose

/-! # The reference meaning of an archive digest

* `fileEntries_sorted`: the files of an archive, in strict order of names.
* `absorbEntries_ok`, `absorbEntries_error`: reading files one after another.
* `digestArchive_ok`, `digestArchive_unlocated`, `digestArchive_unread`: the three outcomes of a
  digest.
* `Archive.files`, `digestArchive_files`: a digest from names and contents alone.
* `digestArchive_reference`: the outcomes together, for every archive that opens.
-/

set_option autoImplicit false

namespace DirDigest

open Zip (Archive Entry EntryFault)

/-- Whether an entry has a place in its archive. -/
def Zip.Archive.Locates (a : Archive) (e : Entry) : Prop := ∃ start, a.locate e = .ok start

/-- Whether an entry has content. -/
def Zip.Archive.Reads (a : Archive) (e : Entry) : Prop := ∃ content, a.content e = .ok content

/-- Whether the name of an entry comes before that of another one. -/
def Zip.Entry.Before (e f : Entry) : Prop := utf8 e.name < utf8 f.name

theorem Zip.Archive.locates_of_content {a : Archive} {e : Entry} {content : Bytes}
    (h : a.content e = .ok content) : a.Locates e := by
  unfold Archive.content at h
  split at h
  · cases h
  · rename_i start hstart
    exact ⟨start, hstart⟩

/-! ## Files in order -/

theorem fileEntries_perm (a : Archive) :
    (fileEntries a).Perm (a.entries.filter fun e => !e.isDirectory) :=
  List.mergeSort_perm _ _

theorem mem_fileEntries {a : Archive} {e : Entry} :
    e ∈ fileEntries a ↔ e ∈ a.entries ∧ e.isDirectory = false := by
  rw [(fileEntries_perm a).mem_iff, List.mem_filter, Bool.not_eq_true']

theorem fileEntries_sorted {a : Archive} (h : (a.entries.map Entry.name).Nodup) :
    (fileEntries a).Pairwise Entry.Before :=
  strict_of_sort (fun e : Entry => utf8 e.name) (by
    have hfiles := nodup_utf8 (h.sublist ((List.filter_sublist (p := fun e => !e.isDirectory)).map
      Entry.name))
    rwa [List.map_map] at hfiles)

/-! ## Reading files -/

section Absorbing
variable {a : Archive}

theorem absorbEntries_cons {e : Entry} {content : Bytes} (h : a.content e = .ok content)
    (rest : List Entry) (checksum : Checksum) {buffer : ReadBuffer} (hb : 0 < buffer.capacity) :
    ∃ later : ReadBuffer, 0 < later.capacity ∧
      absorbEntries a (e :: rest) checksum buffer =
        absorbEntries a rest (checksum.update content) later := by
  cases hopen : a.open e with
  | error fault =>
    rw [Archive.content_of_open hopen] at h
    cases h
  | ok script =>
    have hfeed := Zip.feed_entry hopen checksum hb
    rw [h] at hfeed
    refine ⟨(feed script checksum buffer).buffer, ?_, ?_⟩
    · rw [feed_capacity]
      exact hb
    · simp only [absorbEntries, hopen, hfeed.1, hfeed.2]

theorem absorbEntries_fault {e : Entry} {fault : EntryFault} (h : a.content e = .error fault)
    (rest : List Entry) (checksum : Checksum) {buffer : ReadBuffer} (hb : 0 < buffer.capacity) :
    (absorbEntries a (e :: rest) checksum buffer).result = .error fault.toIoError := by
  cases hopen : a.open e with
  | error other =>
    rw [Archive.content_of_open hopen] at h
    cases h
    simp only [absorbEntries, hopen]
  | ok script =>
    have hfeed := Zip.feed_entry hopen checksum hb
    rw [h] at hfeed
    simp only [absorbEntries, hopen, hfeed]

/-- Files that all have content are absorbed in their order, without separator. -/
theorem absorbEntries_ok {content : Entry → Bytes} (files : List Entry)
    (h : ∀ e ∈ files, a.content e = .ok (content e)) (checksum : Checksum) {buffer : ReadBuffer}
    (hb : 0 < buffer.capacity) :
    (absorbEntries a files checksum buffer).result =
      .ok (checksum.update (files.flatMap content)).value := by
  induction files generalizing checksum buffer with
  | nil => rfl
  | cons e rest ih =>
    obtain ⟨later, hl, hstep⟩ := absorbEntries_cons (h e List.mem_cons_self) rest checksum hb
    rw [hstep, ih (fun f hf => h f (List.mem_cons_of_mem e hf)) _ hl, Checksum.update_update,
      List.flatMap_cons]

theorem absorbEntries_error {before after : List Entry} {e : Entry} {fault : EntryFault}
    (hbefore : ∀ f ∈ before, a.Reads f) (he : a.content e = .error fault) (checksum : Checksum)
    {buffer : ReadBuffer} (hb : 0 < buffer.capacity) :
    (absorbEntries a (before ++ e :: after) checksum buffer).result = .error fault.toIoError := by
  induction before generalizing checksum buffer with
  | nil => exact absorbEntries_fault he after checksum hb
  | cons f before ih =>
    obtain ⟨content, hf⟩ := hbefore f List.mem_cons_self
    obtain ⟨later, hl, hstep⟩ := absorbEntries_cons hf (before ++ e :: after) checksum hb
    rw [List.cons_append, hstep]
    exact ih (fun g hg => hbefore g (List.mem_cons_of_mem f hg)) _ hl

/-! ## Locating entries -/

theorem locateAll_ok {entries : List Entry} (h : ∀ e ∈ entries, a.Locates e) :
    locateAll a entries = .ok () := by
  induction entries with
  | nil => rfl
  | cons e rest ih =>
    obtain ⟨start, hstart⟩ := h e List.mem_cons_self
    simp only [locateAll, hstart]
    exact ih fun f hf => h f (List.mem_cons_of_mem e hf)

theorem locateAll_error {before after : List Entry} {e : Entry} {fault : EntryFault}
    (hbefore : ∀ f ∈ before, a.Locates f) (he : a.locate e = .error fault) :
    locateAll a (before ++ e :: after) = .error fault := by
  induction before with
  | nil => simp only [List.nil_append, locateAll, he]
  | cons f before ih =>
    obtain ⟨start, hstart⟩ := hbefore f List.mem_cons_self
    simp only [List.cons_append, locateAll, hstart]
    exact ih fun g hg => hbefore g (List.mem_cons_of_mem f hg)

end Absorbing

/-! ## Buffers -/

section Buffers
variable (a : Archive)

theorem absorbEntries_capacity (files : List Entry) (checksum : Checksum) (buffer : ReadBuffer) :
    (absorbEntries a files checksum buffer).buffer.capacity = buffer.capacity := by
  induction files generalizing checksum buffer with
  | nil => rfl
  | cons e rest ih =>
    unfold absorbEntries
    split
    · rfl
    · dsimp only
      split
      · exact feed_capacity _ _ _
      · rw [ih, feed_capacity]

theorem digestArchive_capacity (buffer : ReadBuffer) :
    (digestArchive a buffer).buffer.capacity = buffer.capacity := by
  unfold digestArchive
  split
  · rfl
  · exact absorbEntries_capacity a _ _ _

theorem absorbEntries_congr (files : List Entry) (checksum : Checksum) {buffer other : ReadBuffer}
    (h : buffer.capacity = 0 ↔ other.capacity = 0) :
    (absorbEntries a files checksum buffer).result =
      (absorbEntries a files checksum other).result := by
  induction files generalizing checksum buffer other with
  | nil => rfl
  | cons e rest ih =>
    unfold absorbEntries
    cases a.open e with
    | error fault => rfl
    | ok script =>
      obtain ⟨hr, hs⟩ := feed_congr script checksum h
      simp only [hr, hs]
      split
      · rfl
      · exact ih _ (by rw [feed_capacity, feed_capacity]; exact h)

theorem digestArchive_congr {buffer other : ReadBuffer}
    (h : buffer.capacity = 0 ↔ other.capacity = 0) :
    (digestArchive a buffer).result = (digestArchive a other).result := by
  unfold digestArchive
  split
  · rfl
  · exact absorbEntries_congr a _ _ h

end Buffers

/-! ## Outcomes -/

section Outcomes
variable {a : Archive} {buffer : ReadBuffer}

theorem digestArchive_ok {content : Entry → Bytes} (hl : ∀ e ∈ a.entries, a.Locates e)
    (h : ∀ e ∈ fileEntries a, a.content e = .ok (content e)) (hb : 0 < buffer.capacity) :
    (digestArchive a buffer).result = .ok (digestBytes ((fileEntries a).flatMap content)) := by
  simp only [digestArchive, locateAll_ok hl]
  exact absorbEntries_ok (fileEntries a) h .empty hb

theorem digestArchive_unlocated {before after : List Entry} {e : Entry} {fault : EntryFault}
    (hsplit : a.entries = before ++ e :: after) (hbefore : ∀ f ∈ before, a.Locates f)
    (he : a.locate e = .error fault) :
    (digestArchive a buffer).result = .error fault.toIoError := by
  simp only [digestArchive, hsplit, locateAll_error hbefore he]

theorem digestArchive_unread {before after : List Entry} {e : Entry} {fault : EntryFault}
    (hl : ∀ e ∈ a.entries, a.Locates e) (hsplit : fileEntries a = before ++ e :: after)
    (hbefore : ∀ f ∈ before, a.Reads f) (he : a.content e = .error fault)
    (hb : 0 < buffer.capacity) : (digestArchive a buffer).result = .error fault.toIoError := by
  simp only [digestArchive, locateAll_ok hl, hsplit]
  exact absorbEntries_error hbefore he .empty hb

/-- A digest means that every entry was located and every file read. -/
theorem digestArchive_isOk (hb : 0 < buffer.capacity) :
    (∃ d, (digestArchive a buffer).result = .ok d) ↔
      (∀ e ∈ a.entries, a.Locates e) ∧ ∀ e ∈ fileEntries a, a.Reads e := by
  constructor
  · rintro ⟨d, hd⟩
    have hl : ∀ e ∈ a.entries, a.Locates e := by
      rcases all_ok_or_first_error a.locate a.entries with h | ⟨_, _, _, _, hs, hp, he⟩
      · exact h
      · rw [digestArchive_unlocated hs hp he] at hd
        cases hd
    refine ⟨hl, ?_⟩
    rcases all_ok_or_first_error a.content (fileEntries a) with h | ⟨_, _, _, _, hs, hp, he⟩
    · exact h
    · rw [digestArchive_unread hl hs hp he hb] at hd
      cases hd
  · rintro ⟨hl, hr⟩
    choose! content hcontent using hr
    exact ⟨_, digestArchive_ok hl hcontent hb⟩

end Outcomes

/-! ## Names and contents -/

/-- The names and the contents of the files of an archive. -/
def Zip.Archive.files (a : Archive) : List (String × Except EntryFault Bytes) :=
  (a.entries.map fun e => (e.name, a.content e)).filter fun f => !Zip.isDirectoryName f.1

/-- Files in byte order of their names. -/
def byName (files : List (String × Bytes)) : List (String × Bytes) :=
  files.mergeSort fun f g => decide (utf8 f.1 ≤ utf8 g.1)

theorem files_eq_map (a : Archive) :
    a.files = (a.entries.filter fun e => !e.isDirectory).map fun e => (e.name, a.content e) := by
  rw [Archive.files, List.filter_map]
  rfl

theorem files_names_nodup {a : Archive} (h : (a.entries.map Entry.name).Nodup) :
    (a.files.map Prod.fst).Nodup := by
  rw [files_eq_map, List.map_map]
  exact h.sublist (List.filter_sublist.map Entry.name)

/-- There is one order of files by distinct names. -/
theorem byName_eq {files sorted : List (String × Bytes)} (hp : files.Perm sorted)
    (hs : sorted.Pairwise fun f g => utf8 f.1 < utf8 g.1) : byName files = sorted := by
  have hnodup : (files.map fun f => utf8 f.1).Nodup := by
    refine (hp.map _).nodup_iff.2 (List.pairwise_map.2 (hs.imp fun hlt heq => ?_))
    rw [heq] at hlt
    exact List.lt_irrefl _ hlt
  have hsorted := strict_of_sort (fun f : String × Bytes => utf8 f.1) hnodup
  exact eq_of_strict_perm (fun f => utf8 f.1) ((List.mergeSort_perm files _).trans hp) hsorted hs

/-- Where an archive stores its files, and in which order it lists them, does not matter. -/
theorem digestArchive_files {a : Archive} (hnames : (a.entries.map Entry.name).Nodup)
    (hl : ∀ e ∈ a.entries, a.Locates e) {files : List (String × Bytes)}
    (h : a.files.Perm (files.map fun f => (f.1, .ok f.2))) {buffer : ReadBuffer}
    (hb : 0 < buffer.capacity) :
    (digestArchive a buffer).result = .ok (digestBytes ((byName files).flatMap Prod.snd)) := by
  have hread : ∀ e ∈ fileEntries a, ∃ f ∈ files, f.1 = e.name ∧ a.content e = .ok f.2 := by
    intro e he
    have hmem : (e.name, a.content e) ∈ a.files := by
      rw [files_eq_map]
      exact List.mem_map.2 ⟨e, (fileEntries_perm a).mem_iff.1 he, rfl⟩
    obtain ⟨f, hf, heq⟩ := List.mem_map.1 (h.mem_iff.1 hmem)
    exact ⟨f, hf, congrArg Prod.fst heq, (congrArg Prod.snd heq).symm⟩
  let content : Entry → Bytes := fun e => (a.content e).toOption.getD []
  have hcontent : ∀ e ∈ fileEntries a, a.content e = .ok (content e) := by
    intro e he
    obtain ⟨f, -, -, hf⟩ := hread e he
    simp only [content, hf, Except.toOption, Option.getD_some]
  have hperm : files.Perm ((fileEntries a).map fun e => (e.name, content e)) := by
    have hstrip := h.map fun f => (f.1, f.2.toOption.getD [])
    rw [files_eq_map, List.map_map, List.map_map] at hstrip
    have hid : files.map ((fun f => (f.1, f.2.toOption.getD [])) ∘
        fun f => (f.1, (.ok f.2 : Except EntryFault Bytes))) = files := List.map_id files
    rw [hid] at hstrip
    exact (((fileEntries_perm a).map _).trans hstrip).symm
  have hsorted : ((fileEntries a).map fun e => (e.name, content e)).Pairwise
      fun f g => utf8 f.1 < utf8 g.1 := List.pairwise_map.2 (fileEntries_sorted hnames)
  rw [digestArchive_ok hl hcontent hb, byName_eq hperm hsorted, List.flatMap_map]

/-! ## The reference -/

/-- What the digest of an archive is, told from its entries alone; `files` are its files. -/
structure ReferenceOutcome (a : Archive) (files : List Entry) (result : Except IoError Digest) :
    Prop where
  /-- There is a digest exactly if every entry, a directory or not, has a place, and every file has
  content. -/
  succeeds : (∃ d, result = .ok d) ↔
    (∀ e ∈ a.entries, a.Locates e) ∧ ∀ e ∈ a.entries, e.isDirectory = false → a.Reads e
  /-- It is then the digest of the contents of the files, one after another. -/
  value : ∀ content : Entry → Bytes, (∀ e ∈ a.entries, a.Locates e) →
    (∀ e ∈ files, a.content e = .ok (content e)) → result = .ok (digestBytes (files.flatMap content))
  /-- The first entry without a place, in the order of the directory, has the first say. -/
  unlocated : ∀ before e after fault, a.entries = before ++ e :: after →
    (∀ f ∈ before, a.Locates f) → a.locate e = .error fault → result = .error fault.toIoError
  /-- The first file without content, in the order of names, comes next. -/
  unread : ∀ before e after fault, (∀ f ∈ a.entries, a.Locates f) → files = before ++ e :: after →
    (∀ f ∈ before, a.Reads f) → a.content e = .error fault → result = .error fault.toIoError

/-- For every archive that opens and every buffer with room. -/
theorem digestArchive_reference {bytes : Bytes} {a : Archive} (h : Archive.ofBytes bytes = .ok a)
    {buffer : ReadBuffer} (hb : 0 < buffer.capacity) :
    ∃ files : List Entry, files.Perm (a.entries.filter fun e => !e.isDirectory) ∧
      files.Pairwise (fun e f => utf8 e.name < utf8 f.name) ∧
      ReferenceOutcome a files (digestArchive a buffer).result := by
  refine ⟨fileEntries a, fileEntries_perm a, fileEntries_sorted (Archive.names_nodup h), ?_⟩
  constructor
  · rw [digestArchive_isOk hb]
    simp only [mem_fileEntries, and_imp]
  · exact fun _ hl hc => digestArchive_ok hl hc hb
  · exact fun _ _ _ _ hs hp he => digestArchive_unlocated hs hp he
  · exact fun _ _ _ _ hl hs hp he => digestArchive_unread hl hs hp he hb

/-- Two files in an archive, the second before the first in order of names. -/
def sampleBytes : Bytes :=
  Zip.writeArchive [⟨"b", [2, 3], [2, 3], {}, Zip.fileBits⟩, ⟨"a", [1], [1], {}, Zip.fileBits⟩]

/-- What the sample is opened as. -/
def sampleArchive : Archive where
  data := sampleBytes.toArray
  entries :=
    [⟨"b", false, 0, (digestBytes [2, 3]).toNat, 2, 2, 0, false⟩,
     ⟨"a", false, 0, (digestBytes [1]).toNat, 1, 1, 33, false⟩]

theorem ofBytes_sample : Archive.ofBytes sampleBytes = .ok sampleArchive := by
  have h : (Archive.ofBytes sampleBytes).toOption.map Archive.entries =
      some sampleArchive.entries := by decide +kernel
  -- the entries are computed; the data of an open archive are known without that
  obtain ⟨a, ha, hentries⟩ := Option.map_eq_some_iff.1 h
  have hopen := ok_of_toOption ha
  obtain ⟨listed, -, rfl⟩ := Zip.opens_iff_lists.1 hopen
  rw [hopen, show Zip.mergeEntries listed = sampleArchive.entries from hentries]
  rfl

theorem digestArchive_reference_sample : Archive.ofBytes sampleBytes = .ok sampleArchive ∧
    (digestArchive sampleArchive ⟨1, []⟩).result = .ok (digestBytes [1, 2, 3]) := by
  have hbuffer : 0 < (⟨1, []⟩ : ReadBuffer).capacity := by decide
  obtain ⟨files, hperm, hsorted, houtcome⟩ := digestArchive_reference ofBytes_sample hbuffer
  let content : Entry → Bytes := fun e => if e.name = "a" then [1] else [2, 3]
  have hcontent : ∀ e ∈ sampleArchive.entries, e.isDirectory = false →
      (sampleArchive.content e).toOption = some (content e) := by decide +kernel
  have hplace : ∀ e ∈ sampleArchive.entries, (sampleArchive.locate e).toOption.isSome = true := by
    decide +kernel
  have hlocates : ∀ e ∈ sampleArchive.entries, sampleArchive.Locates e := by
    intro e he
    obtain ⟨start, hstart⟩ := Option.isSome_iff_exists.1 (hplace e he)
    exact ⟨start, ok_of_toOption hstart⟩
  have hfiles : files = (sampleArchive.entries.filter fun e => !e.isDirectory).reverse := by
    refine eq_of_strict_perm (fun e => utf8 e.name) (hperm.trans (List.reverse_perm _).symm) hsorted ?_
    decide +kernel
  refine ⟨ofBytes_sample, (houtcome.value content hlocates fun e he => ?_).trans ?_⟩
  · obtain ⟨hmem, hfile⟩ := List.mem_filter.1 (hperm.mem_iff.1 he)
    rw [Bool.not_eq_true'] at hfile
    exact ok_of_toOption (hcontent e hmem hfile)
  · rw [hfiles]
    rfl

end DirDigest
