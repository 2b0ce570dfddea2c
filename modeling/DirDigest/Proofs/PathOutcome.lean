import DirDigest.Proofs.FileTree.Resolve
import DirDigest.Proofs.PathDigest

/-! # What becomes of one path

* `warnings`: the events that tell of something unexpected.
* `digestFile_unopened`, `digestFile_silent`: a file with the name of an archive that does not open,
  and the files that are digested without a warning.
* `digestPath_of_file`, `digestPath_of_directory`, `digestPath_unplaced`, `digestPath_dangling`: what
  a path leads to.
* `digestPath_opened`, `digestPath_raw`: the two ways to digest a file.
* `Mislabeled`, `digestPath_warns`, `digestPath_silent`: the one file that is warned of.
* `digestPath_outcome`: the digest of every path, or its failure, and its warnings.
-/

set_option autoImplicit false

namespace DirDigest

/-! ## Warnings -/

/-- The events that tell of something unexpected. -/
def warnings (events : List Event) : List Event := events.filter fun e => e.level = .warn

theorem warnings_append (first second : List Event) :
    warnings (first ++ second) = warnings first ++ warnings second := List.filter_append ..

theorem warnings_linkEvents (p : Path) (node : Node) : warnings (linkEvents p node) = [] := by
  cases node <;> rfl

/-! ## Files -/

section Files
variable {c : Config} {p : Path} {content : Bytes}

theorem digestFile_unopened (hp : c.isArchiveName p = true) {defect : Zip.Defect}
    (h : Zip.Archive.ofBytes content = .error defect) (buffer : ReadBuffer) :
    (digestFile c p content buffer).result = .ok (digestBytes content) ∧
    warnings (digestFile c p content buffer).events = [.unreadableArchive p defect.message] := by
  rw [digestFile, if_pos hp, h]
  exact ⟨digestRaw_result content _ buffer, rfl⟩

/-- A file that is no archive by its name, or opens as one, is digested without a warning. -/
theorem digestFile_silent (h : c.isArchiveName p = true →
    ∃ a, Zip.Archive.ofBytes content = .ok a) (buffer : ReadBuffer) :
    warnings (digestFile c p content buffer).events = [] := by
  unfold digestFile
  split
  · rename_i hp
    obtain ⟨a, ha⟩ := h hp
    rw [ha]
    rfl
  · rfl

end Files

/-! ## Paths -/

section Paths
variable {t : FileTree} {p : Path}

/-- The digest of a path that leads to a file depends on the content of the file and on the path
itself, whatever links it leads through. -/
theorem digestPath_of_file {content : Bytes} (h : t.stat p = .ok (.file content)) (d : Digester) :
    (d.digestPath t p).result =
      (digestFile d.config p content d.buffer).result.mapError (.read p) ∧
    warnings (d.digestPath t p).events =
      warnings (digestFile d.config p content d.buffer).events := by
  obtain ⟨there, hthere⟩ := FileTree.lstat_of_stat h
  simp only [Digester.digestPath, digestContent, hthere, h, warnings_append, warnings_linkEvents,
    List.nil_append, and_self]

theorem digestPath_of_directory (h : t.stat p = .ok .directory) (d : Digester) :
    (d.digestPath t p).result = .ok directoryDigest ∧ warnings (d.digestPath t p).events = [] := by
  obtain ⟨there, hthere⟩ := FileTree.lstat_of_stat h
  simp only [Digester.digestPath, digestContent, hthere, h, warnings_append, warnings_linkEvents]
  exact ⟨rfl, rfl⟩

theorem digestPath_unplaced {cause : IoError} (h : t.lstat p = .error cause) (d : Digester) :
    (d.digestPath t p).result = .error (.read p cause) ∧
    warnings (d.digestPath t p).events = [] := by
  simp only [Digester.digestPath, digestContent, h]
  exact ⟨rfl, rfl⟩

theorem digestPath_dangling {there : Node} (hthere : t.lstat p = .ok there) {cause : IoError}
    (h : t.stat p = .error cause) (d : Digester) :
    (d.digestPath t p).result = .error (.read p cause) ∧
    warnings (d.digestPath t p).events = [] := by
  simp only [Digester.digestPath, digestContent, hthere, h, warnings_linkEvents]
  exact ⟨rfl, trivial⟩

/-- Once an archive is open, its digest and its failures are those of the path. -/
theorem digestPath_opened {content : Bytes} (h : t.stat p = .ok (.file content)) {d : Digester}
    (hname : d.config.isArchiveName p = true) {a : Zip.Archive}
    (ha : Zip.Archive.ofBytes content = .ok a) :
    (d.digestPath t p).result = (digestArchive a d.buffer).result.mapError (.read p) := by
  rw [(digestPath_of_file h d).1, digestFile_archive hname ha]

theorem digestPath_raw {content : Bytes} (h : t.stat p = .ok (.file content)) {d : Digester}
    (hdefect : d.config.isArchiveName p = true →
      ∃ defect, Zip.Archive.ofBytes content = .error defect) :
    (d.digestPath t p).result = .ok (digestBytes content) := by
  rw [(digestPath_of_file h d).1]
  cases hname : d.config.isArchiveName p with
  | false =>
    rw [digestFile_plain hname]
    rfl
  | true =>
    obtain ⟨defect, ha⟩ := hdefect hname
    rw [(digestFile_unopened hname ha d.buffer).1]
    rfl

/-- Whether a path leads to a file that is an archive by its name, but does not open as one. -/
def Mislabeled (c : Config) (t : FileTree) (p : Path) (defect : Zip.Defect) : Prop :=
  c.isArchiveName p = true ∧
    ∃ content, t.stat p = .ok (.file content) ∧ Zip.Archive.ofBytes content = .error defect

theorem digestPath_warns {d : Digester} {defect : Zip.Defect}
    (h : Mislabeled d.config t p defect) :
    warnings (d.digestPath t p).events = [.unreadableArchive p defect.message] := by
  obtain ⟨hname, content, hfile, ha⟩ := h
  rw [(digestPath_of_file hfile d).2, (digestFile_unopened hname ha d.buffer).2]

theorem digestPath_silent {d : Digester} (h : ∀ defect, ¬Mislabeled d.config t p defect) :
    warnings (d.digestPath t p).events = [] := by
  cases hs : t.stat p with
  | error cause =>
    cases hl : t.lstat p with
    | error cause => exact (digestPath_unplaced hl d).2
    | ok there => exact (digestPath_dangling hl hs d).2
  | ok node =>
    cases node with
    | directory => exact (digestPath_of_directory hs d).2
    | link target => exact absurd hs (FileTree.stat_ne_link p target)
    | file content =>
      rw [(digestPath_of_file hs d).2]
      refine digestFile_silent (fun hname => ?_) d.buffer
      cases ha : Zip.Archive.ofBytes content with
      | ok a => exact ⟨a, rfl⟩
      | error defect => exact absurd ⟨hname, content, hs, ha⟩ (h defect)

end Paths

/-! ## Every path -/

/-- What a digester makes of a path. -/
structure PathOutcome (d : Digester) (t : FileTree) (p : Path) (run : PathRun) : Prop where
  failure : ∀ e, run.result = .error e → ∃ cause, e = .read p cause
  unplaced : ∀ cause, t.lstat p = .error cause → run.result = .error (.read p cause)
  dangling : ∀ there cause, t.lstat p = .ok there → t.stat p = .error cause →
    run.result = .error (.read p cause)
  directory : t.stat p = .ok .directory → run.result = .ok 0
  archive : ∀ content a, t.stat p = .ok (.file content) → d.config.isArchiveName p = true →
    Zip.Archive.ofBytes content = .ok a →
    run.result = (digestArchive a d.buffer).result.mapError (.read p)
  /-- Every file that is not an opened archive has the digest of its bytes. -/
  raw : ∀ content, t.stat p = .ok (.file content) →
    (d.config.isArchiveName p = true → ∃ defect, Zip.Archive.ofBytes content = .error defect) →
    run.result = .ok (digestBytes content)
  warned : ∀ defect, Mislabeled d.config t p defect →
    warnings run.events = [.unreadableArchive p defect.message]
  silent : (∀ defect, ¬Mislabeled d.config t p defect) → warnings run.events = []

/-- Every path: a directory has the digest zero, a file that is an archive by its name and opens as
one has the digest of its entries, and every other file has that of its bytes. -/
theorem digestPath_outcome (d : Digester) (t : FileTree) (p : Path) :
    PathOutcome d t p (d.digestPath t p) where
  failure := fun _ => digestPath_error
  unplaced := fun _ hl => (digestPath_unplaced hl d).1
  dangling := fun _ _ hl hs => (digestPath_dangling hl hs d).1
  directory := fun hs => (digestPath_of_directory hs d).1
  archive := fun _ _ hs hname ha => digestPath_opened hs hname ha
  raw := fun _ hs hdefect => digestPath_raw hs hdefect
  warned := fun _ h => digestPath_warns h
  silent := digestPath_silent

example :
    (digestFile {} "a.zip" [1, 2] { capacity := 4 }).result = .ok (digestBytes [1, 2]) ∧
    warnings (digestFile {} "a.zip" [1, 2] { capacity := 4 }).events =
      [.unreadableArchive "a.zip" "invalid Zip archive: Could not find EOCD"] := by
  decide +kernel

end DirDigest
