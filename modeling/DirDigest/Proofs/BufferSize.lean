import DirDigest.Proofs.ArchiveDigest
import DirDigest.Proofs.Zip.Corruption

/-! # Digests of archives and the size of the read buffer

All buffers with room are alike. Through an empty buffer nothing is read: entries are located and
opened, no content is absorbed, and no checksum is compared. A compressed stream that breaks off
before its first byte is a case apart: a decompressor may find that out as soon as it is asked for
anything, with room for a byte or without. What is said of an empty buffer leaves that open.

* `Archive.Opens`, `Archive.BreaksAtOnce`: whether an entry has a stream, and whether it is one that
  breaks off before its first byte.
* `absorbEntries_empty`, `absorbEntries_unopened`: the two outcomes of an empty buffer.
* `located_of_empty`, `digestArchive_empty`: what a digest through an empty buffer is, and when
  there is one.
* `digestArchive_buffers`: when two buffers lead to the same digest.
-/

set_option autoImplicit false

namespace DirDigest

open Zip (Archive Entry EntryFault)

/-- Whether the content of an entry can be opened. -/
def Zip.Archive.Opens (a : Archive) (e : Entry) : Prop := ∃ script, a.open e = .ok script

theorem Zip.Archive.Reads.opens {a : Archive} {e : Entry} (h : a.Reads e) : a.Opens e := by
  obtain ⟨content, hcontent⟩ := h
  cases hopen : a.open e with
  | ok script => exact ⟨script, hopen⟩
  | error fault =>
    rw [Archive.content_of_open hopen] at hcontent
    cases hcontent

/-- Whether an entry is compressed and its stream breaks off before it brings a byte. -/
def Zip.Archive.BreaksAtOnce (a : Archive) (e : Entry) : Prop :=
  e.method = Zip.deflatedMethod ∧ ∃ start cause, a.locate e = .ok start ∧
    Deflate.inflate (a.stored e start) = ⟨#[], .error cause⟩

theorem Zip.Archive.Reads.notBroken {a : Archive} {e : Entry} (h : a.Reads e) :
    ¬a.BreaksAtOnce e := by
  rintro ⟨hmethod, start, cause, hstart, hinflate⟩
  obtain ⟨script, hopen⟩ := h.opens
  obtain ⟨content, hcontent⟩ := h
  simp only [Archive.content, hstart, hopen, Entry.unpack, Entry.decompress, hmethod, if_true,
    hinflate] at hcontent
  cases cause <;> cases hcontent

/-! ## The empty buffer -/

section Empty
variable {a : Archive} {buffer : ReadBuffer} (hb : buffer.capacity = 0)
include hb

theorem absorbEntries_empty {files : List Entry} (h : ∀ e ∈ files, a.Opens e)
    (checksum : Checksum) :
    absorbEntries a files checksum buffer = ⟨.ok checksum.value, buffer⟩ := by
  induction files with
  | nil => rfl
  | cons e rest ih =>
    obtain ⟨script, hopen⟩ := h e List.mem_cons_self
    -- the first read of no bytes is taken for the end of the stream
    simp only [absorbEntries, hopen, feed_empty script checksum hb]
    exact ih fun f hf => h f (List.mem_cons_of_mem e hf)

theorem absorbEntries_unopened {before after : List Entry} {e : Entry} {fault : EntryFault}
    (hbefore : ∀ f ∈ before, a.Opens f) (he : a.open e = .error fault) (checksum : Checksum) :
    (absorbEntries a (before ++ e :: after) checksum buffer).result = .error fault.toIoError := by
  induction before with
  | nil => simp only [List.nil_append, absorbEntries, he]
  | cons f before ih =>
    obtain ⟨script, hopen⟩ := hbefore f List.mem_cons_self
    simp only [List.cons_append, absorbEntries, hopen, feed_empty script checksum hb]
    exact ih fun g hg => hbefore g (List.mem_cons_of_mem f hg)

theorem located_of_empty {d : Digest} (h : (digestArchive a buffer).result = .ok d) :
    d = digestBytes [] ∧ (∀ e ∈ a.entries, a.Locates e) ∧ ∀ e ∈ fileEntries a, a.Opens e := by
  rcases all_ok_or_first_error a.locate a.entries with hl | ⟨_, e, _, _, hs, hp, he⟩
  · rcases all_ok_or_first_error a.open (fileEntries a) with
      ho | ⟨before, e, after, fault, hs, hp, he⟩
    · simp only [digestArchive, locateAll_ok hl, absorbEntries_empty hb ho] at h
      exact ⟨(Except.ok.inj h).symm, hl, ho⟩
    · simp only [digestArchive, locateAll_ok hl, hs] at h
      rw [absorbEntries_unopened hb hp he] at h
      cases h
  · rw [digestArchive_unlocated hs hp he] at h
    cases h

/-- There is a digest through an empty buffer if all entries are located and all files opened,
unless a file breaks off at once. -/
theorem digestArchive_empty (hl : ∀ e ∈ a.entries, a.Locates e)
    (ho : ∀ e ∈ fileEntries a, a.Opens e) :
    (digestArchive a buffer).result = .ok (digestBytes []) ∨
      ∃ e ∈ fileEntries a, a.BreaksAtOnce e := by
  left
  simp only [digestArchive, locateAll_ok hl, absorbEntries_empty hb ho]
  rfl

end Empty

/-! ## Two buffers -/

/-- Whether two results are one value, or both of them failures. -/
def SameValue (result other : Except IoError Digest) : Prop :=
  ∀ d, result = .ok d ↔ other = .ok d

theorem SameValue.symm {result other : Except IoError Digest} (h : SameValue result other) :
    SameValue other result := fun d => (h d).symm

/-- Whether the digest of an archive is that of no bytes, or there is none, whether or not its
entries are read. -/
def Zip.Archive.ReadingIdle (a : Archive) : Prop :=
  (∃ e ∈ a.entries, ¬a.Locates e) ∨ (∃ e ∈ fileEntries a, ¬a.Opens e) ∨
    ∃ content : Entry → Bytes, (∀ e ∈ fileEntries a, a.content e = .ok (content e)) ∧
      digestBytes ((fileEntries a).flatMap content) = digestBytes []

theorem Zip.Archive.ReadingIdle.sameValue {a : Archive} (h : a.ReadingIdle)
    {buffer other : ReadBuffer} (hb : buffer.capacity = 0) (ho : 0 < other.capacity) :
    SameValue (digestArchive a buffer).result (digestArchive a other).result := by
  intro d
  constructor
  · intro hempty
    obtain ⟨rfl, hl, hopens⟩ := located_of_empty hb hempty
    rcases h with ⟨e, he, hno⟩ | ⟨e, he, hno⟩ | ⟨content, hcontent, hdigest⟩
    · exact absurd (hl e he) hno
    · exact absurd (hopens e he) hno
    · rw [digestArchive_ok hl hcontent ho, hdigest]
  · intro hread
    obtain ⟨hl, hreads⟩ := (digestArchive_isOk ho).1 ⟨d, hread⟩
    rcases h with ⟨e, he, hno⟩ | ⟨e, he, hno⟩ | ⟨content, hcontent, hdigest⟩
    · exact absurd (hl e he) hno
    · exact absurd (hreads e he).opens hno
    · rw [digestArchive_ok hl hcontent ho, hdigest] at hread
      rcases digestArchive_empty hb hl fun e he => (hreads e he).opens with
        hempty | ⟨e, he, hbreaks⟩
      · rwa [Except.ok.inj hread] at hempty
      · exact absurd hbreaks (hreads e he).notBroken

theorem SameValue.readingIdle {a : Archive} {buffer other : ReadBuffer}
    (h : SameValue (digestArchive a buffer).result (digestArchive a other).result)
    (hb : buffer.capacity = 0) (ho : 0 < other.capacity) :
    a.ReadingIdle ∨ ∃ e ∈ fileEntries a, a.BreaksAtOnce e := by
  by_cases hl : ∀ e ∈ a.entries, a.Locates e
  · by_cases hopens : ∀ e ∈ fileEntries a, a.Opens e
    · rcases digestArchive_empty hb hl hopens with hempty | hbreaks
      · have hread := (h _).1 hempty
        obtain ⟨-, hreads⟩ := (digestArchive_isOk ho).1 ⟨_, hread⟩
        choose! content hcontent using hreads
        rw [digestArchive_ok hl hcontent ho] at hread
        exact .inl (.inr (.inr ⟨content, hcontent, Except.ok.inj hread⟩))
      · exact .inr hbreaks
    · simp only [not_forall] at hopens
      obtain ⟨e, he, hno⟩ := hopens
      exact .inl (.inr (.inl ⟨e, he, hno⟩))
  · simp only [not_forall] at hl
    obtain ⟨e, he, hno⟩ := hl
    exact .inl (.inl ⟨e, he, hno⟩)

/-- Reading is not idle where it leads to another digest than that of no bytes. -/
theorem not_idle_of_digest {a : Archive} {buffer : ReadBuffer} (hb : 0 < buffer.capacity)
    {d : Digest} (h : (digestArchive a buffer).result = .ok d) (hd : d ≠ digestBytes []) :
    ¬a.ReadingIdle ∧ ∀ e ∈ fileEntries a, ¬a.BreaksAtOnce e := by
  obtain ⟨hl, hreads⟩ := (digestArchive_isOk hb).1 ⟨d, h⟩
  refine ⟨?_, fun e he => (hreads e he).notBroken⟩
  rintro (⟨e, he, hno⟩ | ⟨e, he, hno⟩ | ⟨content, hcontent, hdigest⟩)
  · exact hno (hl e he)
  · exact hno (hreads e he).opens
  · rw [digestArchive_ok hl hcontent hb, hdigest] at h
    exact hd (Except.ok.inj h).symm

theorem sameValue_of_alike (a : Archive) {buffer other : ReadBuffer}
    (h : buffer.capacity = 0 ↔ other.capacity = 0) :
    SameValue (digestArchive a buffer).result (digestArchive a other).result := by
  rw [digestArchive_congr a h]
  exact fun d => Iff.rfl

/-- Two buffers lead to the same value, or to none, if both of them are empty or none of them is,
and if nothing would come of reading: an entry has no place, a file cannot be opened, or what the
files hold has the digest of no bytes. In no other archive does an empty buffer lead to the same as
one with room, but for those with a compressed file that breaks off at once. A stream is digested
alike through all buffers. -/
theorem digestArchive_buffers (a : Archive) (buffer other : ReadBuffer) :
    ((buffer.capacity = 0 ↔ other.capacity = 0) ∨ a.ReadingIdle →
      SameValue (digestArchive a buffer).result (digestArchive a other).result) ∧
    (SameValue (digestArchive a buffer).result (digestArchive a other).result →
      (buffer.capacity = 0 ↔ other.capacity = 0) ∨ a.ReadingIdle ∨
        ∃ e ∈ fileEntries a, a.BreaksAtOnce e) ∧
    ∀ script : Script,
      (digestStream script buffer).result = (digestStream script other).result := by
  have hstream : ∀ script : Script,
      (digestStream script buffer).result = (digestStream script other).result := by
    intro script
    rw [(digestStream_eq script buffer).1, (digestStream_eq script other).1]
  by_cases halike : buffer.capacity = 0 ↔ other.capacity = 0
  · exact ⟨fun _ => sameValue_of_alike a halike, fun _ => .inl halike, hstream⟩
  rcases Nat.eq_zero_or_pos buffer.capacity with hb | hb
  · have ho : 0 < other.capacity := by omega
    refine ⟨fun h => ?_, fun h => .inr (h.readingIdle hb ho), hstream⟩
    exact (h.resolve_left halike).sameValue hb ho
  · have ho : other.capacity = 0 := by omega
    refine ⟨fun h => ?_, fun h => .inr (h.symm.readingIdle ho hb), hstream⟩
    exact ((h.resolve_left halike).sameValue ho hb).symm

-- one of the two files is compressed
theorem digestArchive_buffers_sample :
    ¬SameValue (digestArchive (Zip.builtArchive Zip.sampleMembers) ⟨0, []⟩).result
      (digestArchive (Zip.builtArchive Zip.sampleMembers) ⟨1, []⟩).result := by
  have hroom : 0 < (⟨1, []⟩ : ReadBuffer).capacity := by decide
  have hread := Zip.built_digest Zip.deflate_compresses Zip.sample_members Zip.sample_limits
    (.refl _) hroom
  have hfiles : byName (Zip.filesBy Zip.sampleSteps) = [("a", [1]), ("b", [2, 3])] :=
    byName_eq (.swap _ _ _) (by decide +kernel)
  rw [hfiles] at hread
  obtain ⟨hidle, hbroken⟩ := not_idle_of_digest hroom hread (by decide +kernel)
  intro hsame
  obtain ⟨-, honly, -⟩ := digestArchive_buffers (Zip.builtArchive Zip.sampleMembers) ⟨0, []⟩ ⟨1, []⟩
  rcases honly hsame with halike | hnothing | ⟨e, he, hbreaks⟩
  · exact absurd halike (by decide)
  · exact hidle hnothing
  · exact hbroken e he hbreaks

/-- An archive that opens, and two buffers that do not lead to the same value. -/
theorem emptyBuffer_differs :
    ¬∀ (bytes : Bytes) (a : Archive) (buffer other : ReadBuffer), Archive.ofBytes bytes = .ok a →
      SameValue (digestArchive a buffer).result (digestArchive a other).result := by
  intro hall
  have hmembers : Zip.members Deflate.deflate Zip.plainSteps = .ok Zip.plainMembers := rfl
  have hopen := Zip.ofBytes_built Zip.deflate_compresses hmembers Zip.plain_limits
  have hbuffer : 0 < (⟨1, []⟩ : ReadBuffer).capacity := by decide
  have hread := Zip.built_digest Zip.deflate_compresses hmembers Zip.plain_limits (.refl _) hbuffer
  have hempty := (hall _ _ ⟨1, []⟩ ⟨0, []⟩ hopen _).1 hread
  obtain ⟨hdigest, -, -⟩ := located_of_empty rfl hempty
  have hfiles : byName (Zip.filesBy Zip.plainSteps) = [("a", [1, 2, 3, 4, 5, 6])] :=
    byName_eq (.refl _) (by decide +kernel)
  rw [hfiles] at hdigest
  exact absurd hdigest (by decide +kernel)

end DirDigest
