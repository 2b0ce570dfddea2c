import DirDigest.Digester
import DirDigest.Proofs.ArchiveDigest

/-! # The digest of one path

* `Digester.Agrees`: digesters with the same settings, of which both or neither have a buffer with
  room; `digestPath_congr` says that they give the same digests and events.
* `digestPath_agrees`: digesting a path leaves a digester that agrees with the one before.
* `digestPath_error`: a path without digest is told with its failure.
-/

set_option autoImplicit false

namespace DirDigest

/-- Whether two digesters differ at most in the size of their buffers and the bytes left there. -/
structure Digester.Agrees (d e : Digester) : Prop where
  extensions : d.config.archiveExtensions = e.config.archiveExtensions
  links : d.config.followLinks = e.config.followLinks
  room : d.buffer.capacity = 0 ↔ e.buffer.capacity = 0

theorem Digester.Agrees.refl (d : Digester) : d.Agrees d := ⟨rfl, rfl, Iff.rfl⟩

theorem Digester.Agrees.symm {d e : Digester} (h : d.Agrees e) : e.Agrees d :=
  ⟨h.extensions.symm, h.links.symm, h.room.symm⟩

theorem Digester.Agrees.trans {d e f : Digester} (h : d.Agrees e) (h' : e.Agrees f) :
    d.Agrees f :=
  ⟨h.extensions.trans h'.extensions, h.links.trans h'.links, h.room.trans h'.room⟩

theorem isArchiveName_congr {c c' : Config} (h : c.archiveExtensions = c'.archiveExtensions)
    (p : Path) : c.isArchiveName p = c'.isArchiveName p := by
  simp only [Config.isArchiveName, h]

theorem new_capacity (c : Config) : 0 < (Digester.new c).buffer.capacity :=
  Nat.lt_of_lt_of_le Nat.zero_lt_one (Nat.le_max_right c.bufferSize 1)

/-- Fresh digesters whose settings differ in the buffer size only. -/
theorem new_agrees {c c' : Config} (he : c.archiveExtensions = c'.archiveExtensions)
    (hl : c.followLinks = c'.followLinks) : (Digester.new c).Agrees (.new c') :=
  ⟨he, hl, ⟨fun h => absurd h (Nat.ne_of_gt (new_capacity c)),
    fun h => absurd h (Nat.ne_of_gt (new_capacity c'))⟩⟩

/-! ## Files -/

theorem digestRaw_result (content : Bytes) (events : List Event) (buffer : ReadBuffer) :
    (digestRaw content events buffer).result = .ok (digestBytes content) :=
  digestStream_data content buffer

section Congruence
variable {c c' : Config} {buffer other : ReadBuffer}

theorem digestFile_archive {p : Path} (hp : c.isArchiveName p = true) {content : Bytes}
    {a : Zip.Archive} (h : Zip.Archive.ofBytes content = .ok a) (buffer : ReadBuffer) :
    (digestFile c p content buffer).result = (digestArchive a buffer).result := by
  rw [digestFile, if_pos hp, h]

theorem digestFile_plain {p : Path} (hp : c.isArchiveName p = false) (content : Bytes)
    (buffer : ReadBuffer) : (digestFile c p content buffer).result = .ok (digestBytes content) := by
  rw [digestFile, hp, if_neg Bool.false_ne_true, digestRaw_result]

/-- The digest of a file depends on its path by whether the path names an archive. -/
theorem digestFile_result_congr {p q : Path} (hp : c.isArchiveName p = c'.isArchiveName q)
    (hb : buffer.capacity = 0 ↔ other.capacity = 0) (content : Bytes) :
    (digestFile c p content buffer).result = (digestFile c' q content other).result := by
  unfold digestFile
  rw [hp]
  split
  · split
    · exact digestArchive_congr _ hb
    · rw [digestRaw_result, digestRaw_result]
  · rw [digestRaw_result, digestRaw_result]

theorem digestFile_congr (hc : c.archiveExtensions = c'.archiveExtensions)
    (hb : buffer.capacity = 0 ↔ other.capacity = 0) (p : Path) (content : Bytes) :
    (digestFile c p content buffer).result = (digestFile c' p content other).result ∧
    (digestFile c p content buffer).events = (digestFile c' p content other).events := by
  refine ⟨digestFile_result_congr (isArchiveName_congr hc p) hb content, ?_⟩
  unfold digestFile
  rw [isArchiveName_congr hc]
  split
  · split
    · rfl
    · rfl
  · rfl

theorem digestFile_capacity (c : Config) (p : Path) (content : Bytes) (buffer : ReadBuffer) :
    (digestFile c p content buffer).buffer.capacity = buffer.capacity := by
  unfold digestFile
  split
  · split
    · exact digestArchive_capacity _ buffer
    · exact digestStream_capacity _ buffer
  · exact digestStream_capacity _ buffer

/-! ## Paths -/

theorem digestContent_congr (hc : c.archiveExtensions = c'.archiveExtensions)
    (hb : buffer.capacity = 0 ↔ other.capacity = 0) (t : FileTree) (p : Path) :
    (digestContent c t p buffer).result = (digestContent c' t p other).result ∧
    (digestContent c t p buffer).events = (digestContent c' t p other).events := by
  unfold digestContent
  cases t.lstat p with
  | error cause => exact ⟨rfl, rfl⟩
  | ok node =>
    cases t.stat p with
    | error cause => exact ⟨rfl, rfl⟩
    | ok target =>
      cases target with
      | file content =>
        obtain ⟨hr, he⟩ := digestFile_congr hc hb p content
        exact ⟨hr, congrArg (linkEvents p node ++ ·) he⟩
      | directory => exact ⟨rfl, rfl⟩
      | link path => exact ⟨rfl, rfl⟩

theorem digestContent_capacity (c : Config) (t : FileTree) (p : Path) (buffer : ReadBuffer) :
    (digestContent c t p buffer).buffer.capacity = buffer.capacity := by
  unfold digestContent
  cases t.lstat p with
  | error cause => rfl
  | ok node =>
    cases t.stat p with
    | error cause => rfl
    | ok target =>
      cases target with
      | file content => exact digestFile_capacity c p content buffer
      | directory => rfl
      | link path => rfl

end Congruence

theorem digestPath_congr {d e : Digester} (h : d.Agrees e) (t : FileTree) (p : Path) :
    (d.digestPath t p).result = (e.digestPath t p).result ∧
    (d.digestPath t p).events = (e.digestPath t p).events := by
  obtain ⟨hr, he⟩ := digestContent_congr h.extensions h.room t p
  simp only [Digester.digestPath, hr, he, and_self]

theorem digestPath_agrees (d : Digester) (t : FileTree) (p : Path) :
    (d.digestPath t p).digester.Agrees d :=
  ⟨rfl, rfl, by simp only [Digester.digestPath, digestContent_capacity]⟩

theorem digestPath_error {d : Digester} {t : FileTree} {p : Path} {e : DigestError}
    (h : (d.digestPath t p).result = .error e) : ∃ cause, e = .read p cause := by
  simp only [Digester.digestPath] at h
  cases hr : (digestContent d.config t p d.buffer).result with
  | error cause =>
    rw [hr] at h
    cases h
    exact ⟨cause, rfl⟩
  | ok digest =>
    rw [hr] at h
    cases h

end DirDigest
