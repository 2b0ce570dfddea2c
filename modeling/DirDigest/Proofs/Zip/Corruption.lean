import DirDigest.Proofs.Checksum
import DirDigest.Proofs.PathOutcome
import DirDigest.Proofs.Zip.RoundTrip

/-! # Archives that are written over

* `method_of_undeflated`: archives without compressed entries.
* `unpack_overwritten`: stored bytes that are written over do not unpack.
* `changedArchive`, `overwrite_changed`: an archive with other bytes in the place of what one file
  stores.
* `digestArchive_fault`: one file without content is enough for an archive to have no digest.
* `Refused`, `corrupted_refused`: an archive with stored content written over opens, and neither it
  nor a path where it is has a digest.
* `markedOffset_notRefused`: an archive that needs no wide fields and does not open then.
-/

set_option autoImplicit false

namespace DirDigest

namespace Zip

/-! ## Uncompressed members -/

/-- Whether a draft has compressed nothing and does not compress what follows. -/
structure Draft.Plain (d : Draft) : Prop where
  settings : d.settings.compress = false
  members : ∀ m ∈ d.members, m.settings.compress = false

theorem plain_add {d d' : Draft} {m : Member}
    (h : (addMember d.members m).map (fun members => { d with members := members }) = .ok d')
    (hm : m.settings.compress = false) (hd : d.Plain) : d'.Plain := by
  cases hadd : addMember d.members m with
  | error fault =>
    rw [hadd] at h
    cases h
  | ok result =>
    rw [hadd] at h
    cases h
    obtain ⟨-, -, rfl⟩ := addMember_eq_ok hadd
    refine ⟨hd.settings, fun x hx => ?_⟩
    rcases List.mem_append.1 hx with hx | hx
    · exact hd.members x hx
    · exact List.mem_singleton.1 hx ▸ hm

theorem plain_step {compress : Compressor} {d d' : Draft} {s : BuildStep}
    (h : d.step compress s = .ok d') (hs : s ≠ .deflated) (hd : d.Plain) : d'.Plain := by
  cases s with
  | file name content => exact plain_add h hd.settings hd
  | directory name => exact plain_add h rfl hd
  | deflated => exact absurd rfl hs
  | permissions mode =>
    cases h
    exact ⟨hd.settings, hd.members⟩
  | modified year month day =>
    simp only [Draft.step] at h
    split at h
    · cases h
      exact ⟨hd.settings, hd.members⟩
    · cases h

theorem plain_run {compress : Compressor} {steps : List BuildStep} {d d' : Draft}
    (h : steps.foldlM (Draft.step compress) d = .ok d') (hs : .deflated ∉ steps) (hd : d.Plain) :
    d'.Plain := by
  induction steps generalizing d with
  | nil =>
    cases h
    exact hd
  | cons s rest ih =>
    rw [List.foldlM_cons] at h
    cases hstep : d.step compress s with
    | error fault =>
      rw [hstep] at h
      cases h
    | ok middle =>
      rw [hstep] at h
      have hfirst : s ≠ .deflated := fun heq => hs (heq ▸ List.mem_cons_self)
      exact ih h (fun hr => hs (List.mem_cons_of_mem s hr)) (plain_step hstep hfirst hd)

/-- Without a step that asks for it nothing is compressed. -/
theorem method_of_undeflated {compress : Compressor} {steps : List BuildStep} {ms : List Member}
    (h : members compress steps = .ok ms) (hs : .deflated ∉ steps) {offset : Nat} :
    ∀ e ∈ entriesFrom offset ms, e.method = storedMethod := by
  intro e he
  obtain ⟨before, m, after, rfl, rfl⟩ := mem_entriesFrom he
  unfold members at h
  cases hrun : steps.foldlM (Draft.step compress) {} with
  | error fault =>
    rw [hrun] at h
    cases h
  | ok d =>
    rw [hrun] at h
    have hmembers : d.members = before ++ m :: after := Except.ok.inj h
    have hplain := (plain_run hrun hs ⟨rfl, nofun⟩).members m (by simp [hmembers])
    exact if_neg (by simp [hplain])

theorem stored_of_method {m : Member} (hf : m.Fits) (h : m.method = storedMethod) :
    m.stored = m.content := by
  have hstores := hf.stores
  unfold Settings.Stores at hstores
  unfold Member.method at h
  split at h
  · cases h
  · rename_i hplain
    rwa [if_neg hplain] at hstores

theorem unpack_overwritten {m : Member} (hf : m.Fits) (hm : m.method = storedMethod)
    {stored : Bytes} (h : Overwritten m.stored stored) (offset : Nat) :
    (m.entry offset).unpack stored = .error .checksum := by
  have hmethod : (m.entry offset).method ≠ deflatedMethod := by
    intro hd
    have hboth : storedMethod = deflatedMethod := hm.symm.trans hd
    cases hboth
  have hcrc : ¬(digestBytes stored).toNat = (m.entry offset).crc := by
    intro hsame
    rw [stored_of_method hf hm] at h
    exact digestBytes_overwritten h (UInt64.toNat_inj.1 hsame).symm
  simp only [Entry.unpack, Entry.decompress, if_neg hmethod, if_neg hcrc]

/-! ## The archive with other stored bytes -/

/-- The local part of members, with `stored` in the place of what `m` stores. -/
def changedPart (before : List Member) (m : Member) (stored : Bytes) (after : List Member) :
    Bytes :=
  localPart before ++ (writeFields m.localHeader.fields ++ utf8 m.name ++ stored) ++ localPart after

/-- The archive of members, with `stored` in the place of what `m` stores. -/
def changedArchive (before : List Member) (m : Member) (stored : Bytes) (after : List Member) :
    Bytes :=
  changedPart before m stored after ++ centralPart 0 (before ++ m :: after) ++
    writeFields (endRecord (before ++ m :: after)).fields

/-- Where the content of `m` starts in such an archive. -/
def contentStart (before : List Member) (m : Member) : Nat :=
  (localPart before).length + LocalHeader.length + (utf8 m.name).length

section Changed
variable {before after : List Member} {m : Member} {stored : Bytes} {a : Archive}

theorem writeArchive_eq (before : List Member) (m : Member) (after : List Member) :
    writeArchive (before ++ m :: after) = changedArchive before m m.stored after := by
  simp only [writeArchive, changedArchive, changedPart, localPart_append, localPart_cons,
    Member.localBytes, List.append_assoc]

theorem changed_stands (before : List Member) (m : Member) (stored : Bytes) (after : List Member) :
    Stands (changedArchive before m stored after).toArray 0 (changedPart before m stored after) :=
  (stands_whole (changedArchive before m stored after)).left.left

/-- Writing over what `m` stores, and nothing else. -/
theorem overwrite_changed {position : Nat} {new : Bytes}
    (h : position + new.length ≤ stored.length) :
    (changedArchive before m stored after).overwrite (contentStart before m + position) new =
      changedArchive before m (stored.overwrite position new) after := by
  -- what stands before the content, and what stands behind it
  have hsplit : ∀ bytes, changedArchive before m bytes after =
      (localPart before ++ writeFields m.localHeader.fields ++ utf8 m.name) ++ bytes ++
        (localPart after ++ centralPart 0 (before ++ m :: after) ++
          writeFields (endRecord (before ++ m :: after)).fields) := by
    intro bytes
    simp only [changedArchive, changedPart, List.append_assoc]
  have hstart : (localPart before ++ writeFields m.localHeader.fields ++ utf8 m.name).length =
      contentStart before m := by
    rw [List.length_append, List.length_append, length_local, contentStart]
  rw [hsplit, hsplit, ← hstart, overwrite_middle _ _ _ h]

theorem length_changedPart (h : m.stored.length = stored.length) :
    (changedPart before m stored after).length = (localPart (before ++ m :: after)).length := by
  simp only [changedPart, localPart_append, localPart_cons, Member.localBytes,
    List.length_append, h]
  omega

theorem changed_here (hs : Stands a.data 0 (changedPart before m stored after)) :
    Stands a.data (localPart before).length
      (writeFields m.localHeader.fields ++ utf8 m.name ++ stored) := by
  have hhere := hs.left.right
  rwa [Nat.zero_add] at hhere

theorem changed_locate (hs : Stands a.data 0 (changedPart before m stored after)) (hm : m.Fits) :
    a.locate (m.entry (localPart before).length) = .ok (contentStart before m) :=
  locate_entry (changed_here hs) hm

theorem changed_content (hs : Stands a.data 0 (changedPart before m stored after)) (hm : m.Fits)
    (hlength : m.stored.length = stored.length) :
    a.content (m.entry (localPart before).length) =
      (m.entry (localPart before).length).unpack stored :=
  content_stored (changed_here hs) hm hlength.symm

/-- The other entries are read as before. -/
theorem changed_reads (hs : Stands a.data 0 (changedPart before m stored after))
    (hf : ∀ x ∈ before ++ m :: after, x.Fits) (hlength : m.stored.length = stored.length) :
    ∀ e ∈ entriesFrom 0 (before ++ m :: after),
      e = m.entry (localPart before).length ∨ a.Reads e := by
  have hnext : 0 + (localPart before ++ (writeFields m.localHeader.fields ++ utf8 m.name ++
      stored)).length = 0 + (localPart before).length + m.localBytes.length := by
    simp only [Member.localBytes, List.length_append, hlength]
    omega
  have hafter := hs.right
  rw [hnext] at hafter
  intro e he
  rw [entriesFrom_append, entriesFrom, List.mem_append, List.mem_cons] at he
  rcases he with he | rfl | he
  · exact .inr (reads_local hs.left.left (fun x hx => hf x (List.mem_append_left _ hx)) e he)
  · exact .inl (by rw [Nat.zero_add])
  · have hfits : ∀ x ∈ after, x.Fits := fun x hx =>
      hf x (List.mem_append_right _ (List.mem_cons_of_mem m hx))
    exact .inr (reads_local hafter hfits e he)

end Changed

theorem overwrite_markedFile {first second : UInt8} {rest : Bytes} :
    (writeArchive [markedFile (first :: rest)]).overwrite
        (contentStart [] (markedFile (first :: rest))) [second] =
      markedArchive (first :: rest) (second :: rest) := by
  have hchanged : ∀ stored, changedArchive [] (markedFile (first :: rest)) stored [] =
      markedArchive (first :: rest) stored :=
    fun stored => congrArg (· ++ _ ++ _) (List.append_nil _)
  have hover : (markedArchive (first :: rest) (first :: rest)).overwrite
      (contentStart [] (markedFile (first :: rest)) + 0) [second] =
        markedArchive (first :: rest) (Bytes.overwrite (first :: rest) 0 [second]) := by
    rw [← hchanged, ← hchanged]
    exact overwrite_changed (Nat.le_add_left 1 rest.length)
  rw [writeArchive_markedFile]
  exact hover

end Zip

open Zip (Archive Entry EntryFault)

/-! ## Digests -/

/-- One file without content is enough for an archive to have no digest, if it is the only one. -/
theorem digestArchive_fault {a : Archive} (hl : ∀ e ∈ a.entries, a.Locates e) {e : Entry}
    (he : e ∈ fileEntries a) {fault : EntryFault} (hfault : a.content e = .error fault)
    (hothers : ∀ f ∈ a.entries, f = e ∨ a.Reads f) {buffer : ReadBuffer}
    (hb : 0 < buffer.capacity) :
    (digestArchive a buffer).result = .error fault.toIoError := by
  rcases all_ok_or_first_error a.content (fileEntries a) with
    hall | ⟨before, f, after, other, hsplit, hbefore, hf⟩
  · obtain ⟨content, hcontent⟩ := hall e he
    rw [hfault] at hcontent
    cases hcontent
  · have hmem : f ∈ fileEntries a := by simp [hsplit]
    rcases hothers f (mem_fileEntries.1 hmem).1 with rfl | ⟨content, hcontent⟩
    · rw [hfault] at hf
      cases hf
      exact digestArchive_unread hl hsplit hbefore hfault hb
    · rw [hf] at hcontent
      cases hcontent

/-- An archive that opens and has no digest makes its path unreadable; the digest of its bytes is
not taken in place of it. -/
theorem digestPath_archive_error {t : FileTree} {p : Path} {bytes : Bytes}
    (hp : t.stat p = .ok (.file bytes)) {a : Archive} (ha : Archive.ofBytes bytes = .ok a)
    {d : Digester} (hname : d.config.isArchiveName p = true) {cause : IoError}
    (herror : (digestArchive a d.buffer).result = .error cause) :
    (d.digestPath t p).result = .error (.read p cause) := by
  rw [digestPath_opened hp hname ha, herror]
  rfl

/-- What becomes of an archive with some of its bytes written over: it opens with the same entries,
and neither it nor a path where it is has a digest. -/
structure Refused (entries : List Entry) (bytes : Bytes) : Prop where
  opens : ∃ a, Archive.ofBytes bytes = .ok a ∧ a.entries = entries ∧
    ∀ buffer : ReadBuffer, 0 < buffer.capacity →
      (digestArchive a buffer).result = .error EntryFault.checksum.toIoError
  path : ∀ (d : Digester) (t : FileTree) (p : Path), 0 < d.buffer.capacity →
    d.config.isArchiveName p = true → t.stat p = .ok (.file bytes) →
    (d.digestPath t p).result = .error (.read p EntryFault.checksum.toIoError)

namespace Zip

section Refusing
variable {before after : List Member} {m : Member} {stored : Bytes}

theorem changed_digest {a : Archive} (hentries : a.entries = entriesFrom 0 (before ++ m :: after))
    (hs : Stands a.data 0 (changedPart before m stored after))
    (hf : ∀ x ∈ before ++ m :: after, x.Fits) (hm : m.method = storedMethod)
    (hfile : isDirectoryName m.name = false) (hw : Overwritten m.stored stored)
    {buffer : ReadBuffer} (hb : 0 < buffer.capacity) :
    (digestArchive a buffer).result = .error EntryFault.checksum.toIoError := by
  have hfits : m.Fits := hf m (by simp)
  have hcontent := changed_content hs hfits hw.length
  rw [unpack_overwritten hfits hm hw] at hcontent
  have hothers := hentries ▸ changed_reads hs hf hw.length
  have hlisted : m.entry (localPart before).length ∈ a.entries := by
    rw [hentries, entriesFrom_append, entriesFrom, Nat.zero_add]
    exact List.mem_append_right _ List.mem_cons_self
  have hdirectory : (m.entry (localPart before).length).isDirectory = false := by
    rw [Entry.isDirectory, entry_name, hfile]
  refine digestArchive_fault (fun e he => ?_) (mem_fileEntries.2 ⟨hlisted, hdirectory⟩) hcontent
    hothers hb
  rcases hothers e he with rfl | ⟨content, hread⟩
  · exact ⟨_, changed_locate hs hfits⟩
  · exact Archive.locates_of_content hread

theorem changed_refused (hf : ∀ x ∈ before ++ m :: after, x.Fits)
    (hnames : ((before ++ m :: after).map Member.name).Nodup)
    (hl : ClassicLimits (before ++ m :: after)) (hm : m.method = storedMethod)
    (hfile : isDirectoryName m.name = false) (hw : Overwritten m.stored stored) :
    Refused (entriesFrom 0 (before ++ m :: after)) (changedArchive before m stored after) := by
  have hopen := ofBytes_written (length_changedPart hw.length) hf hnames hl
  have hs := changed_stands before m stored after
  constructor
  · exact ⟨_, hopen, rfl, fun buffer hb => changed_digest rfl hs hf hm hfile hw hb⟩
  · intro d t p hb hname hp
    exact digestPath_archive_error hp hopen hname (changed_digest rfl hs hf hm hfile hw hb)

end Refusing

/-- Built archives open, and all their entries are located; writing over up to four consecutive
bytes of what a file stores, if it is not compressed, is not overlooked. -/
theorem corrupted_refused {compress : Compressor} (hc : Compresses compress)
    {steps : List BuildStep} {ms : List Member} (h : members compress steps = .ok ms)
    (hl : ClassicLimits ms) {bytes : Bytes} (hbuild : buildWith compress steps = .ok bytes) :
    ∃ a, Archive.ofBytes bytes = .ok a ∧
      ∀ e ∈ a.entries, e.isDirectory = false → e.method = storedMethod →
        ∃ start, a.locate e = .ok start ∧
          ∀ (position : Nat) (new : Bytes), start ≤ position →
            position + new.length ≤ start + e.compressedSize → new.length ≤ 4 →
            bytes.overwrite position new ≠ bytes →
            Refused a.entries (bytes.overwrite position new) := by
  obtain ⟨hfits, hnames, -⟩ := members_spec hc h
  obtain rfl : writeArchive ms = bytes := Except.ok.inj ((buildWith_of_members h).symm.trans hbuild)
  refine ⟨builtArchive ms, ofBytes_built hc h hl, fun e he hfile hmethod => ?_⟩
  obtain ⟨before, m, after, rfl, rfl⟩ := mem_entriesFrom he
  rw [Nat.zero_add] at hfile hmethod ⊢
  have hm : m.Fits := hfits m (by simp)
  have hs : Stands (builtArchive (before ++ m :: after)).data 0
      (changedPart before m m.stored after) := by
    rw [builtArchive, writeArchive_eq]
    exact changed_stands before m m.stored after
  refine ⟨contentStart before m, changed_locate hs hm, ?_⟩
  intro position new hfrom hto hshort hdiffers
  obtain ⟨k, rfl⟩ := Nat.exists_eq_add_of_le hfrom
  have hk : k + new.length ≤ m.stored.length := by
    rw [Nat.add_assoc] at hto
    exact Nat.le_of_add_le_add_left hto
  rw [writeArchive_eq, overwrite_changed hk] at hdiffers ⊢
  have hw : Overwritten m.stored (m.stored.overwrite k new) :=
    overwritten_overwrite hk hshort fun hsame => hdiffers (by rw [hsame])
  rw [Entry.isDirectory, entry_name] at hfile
  exact changed_refused hfits hnames hl hmethod hfile hw

/-- A file and a directory, not compressed. -/
def plainSteps : List BuildStep := [.file "a" [1, 2, 3, 4, 5, 6], .directory "d"]

def plainFile : Member := ⟨"a", [1, 2, 3, 4, 5, 6], [1, 2, 3, 4, 5, 6], {}, fileBits⟩

def plainMembers : List Member := [plainFile, ⟨"d/", [], [], { mode := 0o755 }, directoryBits⟩]

theorem plain_limits : ClassicLimits plainMembers :=
  classicLimits_of_length (by decide) (by decide) (by decide +kernel)

-- the content starts at 31; the bytes that are written over it look like those of an end record
theorem corrupted_refused_sample :
    Refused (builtArchive plainMembers).entries
      ((writeArchive plainMembers).overwrite 32 (.ofNumber 4 endSignature)) := by
  have hmembers : members Deflate.deflate plainSteps = .ok plainMembers := rfl
  obtain ⟨a, ha, hrefused⟩ := corrupted_refused deflate_compresses hmembers plain_limits
    (buildWith_of_members hmembers)
  obtain rfl : builtArchive plainMembers = a :=
    Except.ok.inj ((ofBytes_built deflate_compresses hmembers plain_limits).symm.trans ha)
  have hlisted : plainFile.entry 0 ∈ (builtArchive plainMembers).entries := List.mem_cons_self
  have hplain : .deflated ∉ plainSteps := by simp [plainSteps]
  have hfile : (plainFile.entry 0).isDirectory = false := by decide +kernel
  obtain ⟨start, hstart, hover⟩ :=
    hrefused _ hlisted hfile (method_of_undeflated hmembers hplain _ hlisted)
  have hplace : ((builtArchive plainMembers).locate (plainFile.entry 0)).toOption = some 31 := by
    decide +kernel
  obtain rfl : 31 = start := Except.ok.inj ((ok_of_toOption hplace).symm.trans hstart)
  exact hover 32 _ (by decide) (by decide) (by decide) (by decide +kernel)

/-- An archive without compressed entries that is built and needs no wide fields, and that does not
open when the first byte of its content is written over. -/
theorem markedOffset_notRefused :
    members Deflate.deflate markedSteps = .ok [markedFile zeroContent] ∧
      .deflated ∉ markedSteps ∧ NarrowLimits [markedFile zeroContent] ∧
      isDirectoryName locatorName = false ∧ 1 ≤ (markedFile zeroContent).stored.length ∧
      ∃ bytes start, build markedSteps = .ok bytes ∧
        start = contentStart [] (markedFile zeroContent) ∧ bytes.overwrite start [1] ≠ bytes ∧
        ∀ a, Archive.ofBytes (bytes.overwrite start [1]) ≠ .ok a := by
  have hmembers := members_markedFile Deflate.deflate zeroContent
  have hplain : .deflated ∉ markedSteps := by simp [markedSteps]
  obtain ⟨rest, hrest⟩ : ∃ rest, zeroContent = 0 :: rest := ⟨_, List.replicate_succ⟩
  have hlength : (0 :: rest).length = markedLength := hrest ▸ zeroContent_length
  have hsmall : ∀ b ∈ 1 :: rest, b < 5 := by
    refine List.forall_mem_cons.2 ⟨by decide, fun b hb => ?_⟩
    have hzero : b ∈ zeroContent := hrest ▸ List.mem_cons_of_mem 0 hb
    rw [List.eq_of_mem_replicate hzero]
    decide
  refine ⟨hmembers, hplain, markedFile_limits zeroContent_length, by decide +kernel, ?_, _, _,
    buildWith_of_members hmembers, rfl, ?_, ?_⟩
  · rw [markedFile, hrest]
    exact Nat.le_add_left 1 rest.length
  · rw [hrest, overwrite_markedFile, writeArchive_markedFile]
    intro hsame
    cases markedArchive_injective hsame
  · rw [hrest, overwrite_markedFile]
    exact markedArchive_unopened hlength hlength hsmall

end Zip

end DirDigest
