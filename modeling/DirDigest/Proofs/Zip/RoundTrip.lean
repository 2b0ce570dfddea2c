import DirDigest.Proofs.ArchiveDigest
import DirDigest.Proofs.Zip.MarkedOffset

/-! # Building an archive and reading it

* `built_contents`, `built_files`: the names and contents of a built archive.
* `built_digest`: its digest.
* `build_round_trip`: opening, listing and digesting what a list of steps builds.
* `markedOffset_unopened`: an archive that needs no wide fields and does not open.
-/

set_option autoImplicit false

namespace DirDigest.Zip

/-- What a built archive is opened as. -/
def builtArchive (ms : List Member) : Archive := ⟨(writeArchive ms).toArray, entriesFrom 0 ms⟩

theorem reads_local {a : Archive} {offset : Nat} {ms : List Member}
    (hs : Stands a.data offset (localPart ms)) (hf : ∀ m ∈ ms, m.Fits) :
    ∀ e ∈ entriesFrom offset ms, a.Reads e := by
  intro e he
  have hmem : (e.name, a.content e) ∈ (entriesFrom offset ms).map fun e => (e.name, a.content e) :=
    List.mem_map_of_mem he
  rw [contents_local hs hf] at hmem
  obtain ⟨m, -, hm⟩ := List.mem_map.1 hmem
  exact ⟨m.content, (congrArg Prod.snd hm).symm⟩

theorem built_stands (ms : List Member) : Stands (builtArchive ms).data 0 (localPart ms) :=
  (stands_whole (writeArchive ms)).left.left

section Built
variable {compress : Compressor} {steps : List BuildStep} {ms : List Member}

theorem ofBytes_built (hc : Compresses compress) (h : members compress steps = .ok ms)
    (hl : ClassicLimits ms) : Archive.ofBytes (writeArchive ms) = .ok (builtArchive ms) := by
  obtain ⟨hfits, hnames, -⟩ := members_spec hc h
  exact ofBytes_written rfl hfits hnames hl

theorem built_contents (hc : Compresses compress) (h : members compress steps = .ok ms) :
    (builtArchive ms).entries.map (fun e => (e.name, (builtArchive ms).content e)) =
      (addedBy steps).map fun f => (f.1, .ok f.2) := by
  obtain ⟨hfits, -, hlisted⟩ := members_spec hc h
  rw [← hlisted, List.map_map]
  exact contents_local (built_stands ms) hfits

theorem built_files (hc : Compresses compress) (h : members compress steps = .ok ms) :
    (builtArchive ms).files = (filesBy steps).map fun f => (f.1, .ok f.2) := by
  rw [Archive.files, built_contents hc h, filesBy_eq, List.filter_map]
  rfl

theorem built_locates (hc : Compresses compress) (h : members compress steps = .ok ms) :
    ∀ e ∈ (builtArchive ms).entries, (builtArchive ms).Locates e := by
  intro e he
  obtain ⟨content, hcontent⟩ := reads_local (built_stands ms) (members_spec hc h).1 e he
  exact Archive.locates_of_content hcontent

theorem built_digest (hc : Compresses compress) (h : members compress steps = .ok ms)
    (hl : ClassicLimits ms) {files : List (String × Bytes)} (hp : (filesBy steps).Perm files)
    {buffer : ReadBuffer} (hb : 0 < buffer.capacity) :
    (digestArchive (builtArchive ms) buffer).result =
      .ok (digestBytes ((byName files).flatMap Prod.snd)) := by
  have hnames := Archive.names_nodup (ofBytes_built hc h hl)
  refine digestArchive_files hnames (built_locates hc h) ?_ hb
  rw [built_files hc h]
  exact hp.map _

theorem buildWith_of_members (h : members compress steps = .ok ms) :
    buildWith compress steps = .ok (writeArchive ms) := by
  rw [buildWith, h]
  rfl

end Built

/-- Steps that can be carried out, within the limits of narrow fields, build an archive that opens,
lists what was added in the order of the steps, and has the digest of the files in order of names.
Steps that add the same files in another order, under other settings and among other directories
build an archive with the same digest. -/
theorem build_round_trip {compress : Compressor} (hc : Compresses compress)
    {steps : List BuildStep} {ms : List Member} (h : members compress steps = .ok ms)
    (hl : ClassicLimits ms) :
    ∃ bytes a, buildWith compress steps = .ok bytes ∧ Archive.ofBytes bytes = .ok a ∧
      a.entries.map (fun e => (e.name, a.content e)) =
        (addedBy steps).map (fun f => (f.1, .ok f.2)) ∧
      (∀ buffer : ReadBuffer, 0 < buffer.capacity → (digestArchive a buffer).result =
        .ok (digestBytes ((byName (filesBy steps)).flatMap Prod.snd))) ∧
      ∀ (others : List BuildStep) (ms' : List Member), members compress others = .ok ms' →
        ClassicLimits ms' → (filesBy others).Perm (filesBy steps) →
        ∃ bytes' b, buildWith compress others = .ok bytes' ∧ Archive.ofBytes bytes' = .ok b ∧
          ∀ buffer buffer' : ReadBuffer, 0 < buffer.capacity → 0 < buffer'.capacity →
            (digestArchive b buffer').result = (digestArchive a buffer).result := by
  refine ⟨writeArchive ms, builtArchive ms, buildWith_of_members h, ofBytes_built hc h hl,
    built_contents hc h, fun buffer hb => built_digest hc h hl (.refl _) hb,
    fun others ms' h' hl' hp => ?_⟩
  refine ⟨writeArchive ms', builtArchive ms', buildWith_of_members h', ofBytes_built hc h' hl',
    fun buffer buffer' hb hb' => ?_⟩
  rw [built_digest hc h' hl' hp hb', built_digest hc h hl (.refl _) hb]

/-- A file, a directory, and a compressed file whose name comes before that of the first one. -/
def sampleSteps : List BuildStep :=
  [.permissions 0o600, .file "b" [2, 3], .deflated, .directory "d", .modified 2024 2 29,
   .file "a" [1]]

/-- What the sample adds. -/
def sampleMembers : List Member :=
  [⟨"b", [2, 3], [2, 3], { mode := 0o600 }, fileBits⟩,
   ⟨"d/", [], [], { mode := 0o755 }, directoryBits⟩,
   ⟨"a", [1], Deflate.deflate [1], ⟨true, 0o600, 22621⟩, fileBits⟩]

theorem sample_members : members Deflate.deflate sampleSteps = .ok sampleMembers := rfl

theorem sample_limits : ClassicLimits sampleMembers :=
  classicLimits_of_length (by decide) (by decide) (by decide +kernel)

theorem build_round_trip_sample : ∃ bytes a, build sampleSteps = .ok bytes ∧
    Archive.ofBytes bytes = .ok a ∧
    a.entries.map (fun e => (e.name, a.content e)) =
      [("b", .ok [2, 3]), ("d/", .ok []), ("a", .ok [1])] ∧
    (digestArchive a ⟨1, []⟩).result = .ok (digestBytes [1, 2, 3]) := by
  have hbuffer : 0 < (⟨1, []⟩ : ReadBuffer).capacity := by decide
  obtain ⟨bytes, a, hbuild, hopen, hcontents, hdigest, -⟩ :=
    build_round_trip deflate_compresses sample_members sample_limits
  have hfiles : byName (filesBy sampleSteps) = [("a", [1]), ("b", [2, 3])] :=
    byName_eq (.swap _ _ _) (by decide +kernel)
  refine ⟨bytes, a, hbuild, hopen, hcontents, ?_⟩
  rw [hdigest _ hbuffer, hfiles]
  rfl

/-- As many zero bytes as put the directory behind the file at the greatest offset. -/
def zeroContent : Bytes := List.replicate markedLength 0

/-- A file of zero bytes whose name begins like a locator. -/
def markedSteps : List BuildStep := [.file locatorName zeroContent]

theorem zeroContent_length : zeroContent.length = markedLength := List.length_replicate

/-- An archive that is built and needs no wide fields, and that does not open. -/
theorem markedOffset_unopened :
    members Deflate.deflate markedSteps = .ok [markedFile zeroContent] ∧
      NarrowLimits [markedFile zeroContent] ∧
      ∃ bytes, build markedSteps = .ok bytes ∧ ∀ a, Archive.ofBytes bytes ≠ .ok a := by
  have hmembers := members_markedFile Deflate.deflate zeroContent
  have hsmall : ∀ b ∈ zeroContent, b < 5 := by
    intro b hb
    rw [List.eq_of_mem_replicate hb]
    decide
  refine ⟨hmembers, markedFile_limits zeroContent_length, _, buildWith_of_members hmembers, ?_⟩
  rw [writeArchive_markedFile]
  exact markedArchive_unopened zeroContent_length zeroContent_length hsmall

end DirDigest.Zip
