import DirDigest.Proofs.Checksum
import DirDigest.Proofs.Zip.Building
import DirDigest.Proofs.Zip.Content
import DirDigest.Proofs.Zip.Layout
import DirDigest.Proofs.Zip.Opening

/-! # Reading back what was written

* `NarrowLimits`: the members whose archive needs no wide fields.
* `ClassicLimits`: those whose archive is not taken for one with wide fields either;
  `classicLimits_of_length` tells some by the length of the archive.
* `entriesFrom`, `mem_entriesFrom`: the entries that the directory of members is read as, and the
  members that they were made of.
* `readEntry_central`, `listEntries_central`: reading one directory entry, and the directory.
* `written_lists`, `ofBytes_written`: listing and opening an archive, whatever stands in place of
  the local part.
* `content_stored`, `contents_local`: the content of an entry, and of all entries.
-/

set_option autoImplicit false

namespace DirDigest.Zip

/-- Whether the lengths of a member fit the narrow fields. -/
structure Member.Narrow (m : Member) : Prop where
  content : m.content.length < 0x100000000
  stored : m.stored.length < 0x100000000

/-- Whether an archive of members needs no wide fields: the number of its entries, their sizes, and
the offset and the length of its directory have room in narrow ones. -/
structure NarrowLimits (ms : List Member) : Prop where
  count : ms.length < 0xFFFF
  sizes : ∀ m ∈ ms, m.Narrow
  offset : (localPart ms).length < 0x100000000
  directory : (centralPart 0 ms).length < 0x100000000

/-- Whether an archive of members needs no wide fields and is not taken for one that has them. -/
structure ClassicLimits (ms : List Member) : Prop extends NarrowLimits ms where
  /-- The greatest offset is also the mark of a wide one: what stands before the end record is then
  not to be taken for a locator. -/
  unmarked : (localPart ms).length = wideMark →
    ((centralPart 0 ms).drop ((centralPart 0 ms).length - Locator64.length)).take 4 ≠
      Bytes.ofNumber 4 locatorSignature64

/-! ## Entries -/

/-- What the directory entry of a member is read as. -/
def Member.entry (m : Member) (offset : Nat) : Entry :=
  Entry.ofHeader (m.centralHeader offset) (utf8 m.name)

/-- What the directory of members is read as, the first of which is at `offset`. -/
def entriesFrom : (offset : Nat) → List Member → List Entry
  | _, [] => []
  | offset, m :: rest => m.entry offset :: entriesFrom (offset + m.localBytes.length) rest

theorem localPart_append (before after : List Member) :
    localPart (before ++ after) = localPart before ++ localPart after := List.flatMap_append

theorem localPart_cons (m : Member) (rest : List Member) :
    localPart (m :: rest) = m.localBytes ++ localPart rest := List.flatMap_cons

theorem stored_length_le {m : Member} {ms : List Member} (h : m ∈ ms) :
    m.stored.length ≤ (localPart ms).length := by
  obtain ⟨before, after, rfl⟩ := List.append_of_mem h
  simp only [localPart_append, localPart_cons, Member.localBytes, List.length_append]
  omega

/-- A short archive needs no wide fields. -/
theorem classicLimits_of_length {ms : List Member} (hcount : ms.length < 0xFFFF)
    (hcontent : ∀ m ∈ ms, m.content.length < 0x100000000)
    (hlength : (writeArchive ms).length < wideMark) : ClassicLimits ms := by
  have hparts : (localPart ms).length < wideMark ∧ (centralPart 0 ms).length < wideMark := by
    simp only [writeArchive, List.length_append] at hlength
    omega
  obtain ⟨hlocal, hcentral⟩ := hparts
  have hwide : wideMark < 0x100000000 := by decide
  refine ⟨⟨hcount, fun m hm => ⟨hcontent m hm, ?_⟩, hlocal.trans hwide, hcentral.trans hwide⟩, ?_⟩
  · exact (stored_length_le hm).trans_lt (hlocal.trans hwide)
  · intro hmark
    exact absurd hmark (Nat.ne_of_lt hlocal)

theorem entriesFrom_append (offset : Nat) (before after : List Member) :
    entriesFrom offset (before ++ after) =
      entriesFrom offset before ++ entriesFrom (offset + (localPart before).length) after := by
  induction before generalizing offset with
  | nil => rfl
  | cons m rest ih =>
    rw [List.cons_append, entriesFrom, entriesFrom, ih, localPart_cons, List.length_append,
      Nat.add_assoc, List.cons_append]

theorem mem_entriesFrom {offset : Nat} {ms : List Member} {e : Entry}
    (h : e ∈ entriesFrom offset ms) :
    ∃ before m after, ms = before ++ m :: after ∧
      e = m.entry (offset + (localPart before).length) := by
  induction ms generalizing offset with
  | nil => cases h
  | cons m rest ih =>
    rcases List.mem_cons.1 h with rfl | h
    · exact ⟨[], m, rest, rfl, rfl⟩
    · obtain ⟨before, m', after, rfl, he⟩ := ih h
      refine ⟨m :: before, m', after, rfl, ?_⟩
      rw [he, localPart_cons, List.length_append, Nat.add_assoc]

@[simp] theorem entry_name (m : Member) (offset : Nat) : (m.entry offset).name = m.name :=
  nameText_utf8 m

theorem entriesFrom_names (offset : Nat) (ms : List Member) :
    (entriesFrom offset ms).map Entry.name = ms.map Member.name := by
  induction ms generalizing offset with
  | nil => rfl
  | cons m rest ih => rw [entriesFrom, List.map_cons, List.map_cons, entry_name, ih]

theorem flags_cases (m : Member) : m.flags = 0 ∨ m.flags = 0x800 := by
  unfold Member.flags
  split
  · exact .inl rfl
  · exact .inr rfl

theorem method_cases (m : Member) : m.method = storedMethod ∨ m.method = deflatedMethod := by
  unfold Member.method
  split
  · exact .inr rfl
  · exact .inl rfl

theorem digestBytes_lt (bytes : Bytes) : (digestBytes bytes).toNat < 0x100000000 :=
  Checksum.value_lt _

theorem length_central_bytes (m : Member) (offset : Nat) :
    (m.centralBytes offset).length = CentralHeader.length + (utf8 m.name).length := by
  rw [Member.centralBytes, List.length_append, length_central]

theorem central_fits {m : Member} {offset : Nat} (hm : m.Fits) (hn : m.Narrow)
    (ho : offset < 0x100000000) :
    FieldsFit (m.centralHeader offset).fields := by
  have hflags : m.flags < 0x10000 := by
    rcases flags_cases m with h | h <;> omega
  have hmethod : m.method < 0x10000 := by
    rcases method_cases m with h | h <;> rw [h] <;> decide
  have hmode : (m.settings.mode % 0o1000 + m.kindBits) * 0x10000 < 0x100000000 := by
    rcases hm.kind with h | h
    · rw [h, fileBits]
      omega
    · rw [h, directoryBits]
      omega
  have hcrc := digestBytes_lt m.content
  have hname := hm.name
  have hdate := hm.date
  simp only [FieldsFit, CentralHeader.fields, Member.centralHeader, List.forall_mem_cons,
    byteRange_two, byteRange_four, centralSignature]
  refine ⟨?_, ?_, ?_, hflags, hmethod, ?_, hdate, hcrc, hn.stored, hn.content, hname, ?_, ?_, ?_,
    ?_, hmode, ho, fun f hf => absurd hf List.not_mem_nil⟩
  all_goals decide

/-! ## Reading the directory -/

section Directory
variable {data : Array UInt8} {position offset : Nat}

theorem readEntry_central {m : Member} (hs : Stands data position (m.centralBytes offset))
    (hf : FieldsFit (m.centralHeader offset).fields) :
    readEntry data 0 position = .ok (m.entry offset, position + (m.centralBytes offset).length) := by
  have hname : Stands data (position + CentralHeader.length) (utf8 m.name ++ []) := by
    have h := Stands.right hs
    rw [length_central] at h
    rw [List.append_nil]
    exact h
  have hn : slice? data (position + CentralHeader.length) (utf8 m.name).length =
      some (utf8 m.name) := hname.left.slice rfl
  have hx : slice? data (position + CentralHeader.length + (utf8 m.name).length) 0 = some [] :=
    hname.right.slice rfl
  have hoffset : offset < 0x100000000 := hf (4, offset) (by
    simp [CentralHeader.fields, Member.centralHeader])
  have hmethod : m.method ≠ cipherMethod := by
    rcases method_cases m with h | h
    · rw [h]
      decide
    · rw [h]
      decide
  unfold readEntry
  rw [hs.central hf]
  simp only [Member.centralHeader, hn, hx, Nat.add_zero]
  rw [if_neg (not_not_intro rfl)]
  simp only [List.length_nil, Entry.amendAll]
  have hcipher : ¬((m.entry offset).method = cipherMethod ∧ (!(m.entry offset).hasCipher) = true) :=
    fun h => hmethod h.1
  have hwide : ¬0x10000000000000000 ≤ (m.entry offset).offset :=
    Nat.not_le.2 (Nat.lt_trans hoffset (by decide))
  rw [length_central_bytes, ← Nat.add_assoc]
  exact (if_neg hcipher).trans (if_neg hwide)

theorem listEntries_central {ms : List Member}
    (hs : Stands data position (centralPart offset ms)) (hf : ∀ m ∈ ms, m.Fits)
    (hn : ∀ m ∈ ms, m.Narrow) (ho : offset + (localPart ms).length < 0x100000000) :
    listEntries data 0 ms.length position = .ok (entriesFrom offset ms) := by
  induction ms generalizing position offset with
  | nil => rfl
  | cons m rest ih =>
    have hm : m ∈ m :: rest := List.mem_cons_self
    rw [localPart_cons, List.length_append] at ho
    have hfit : FieldsFit (m.centralHeader offset).fields :=
      central_fits (hf m hm) (hn m hm) (by omega)
    have hrest := ih hs.right (fun x hx => hf x (List.mem_cons_of_mem m hx))
      (fun x hx => hn x (List.mem_cons_of_mem m hx)) (by omega)
    rw [List.length_cons, listEntries, readEntry_central hs.left hfit]
    simp only [hrest]
    rfl

end Directory

/-! ## Finding the directory -/

theorem directoryOfEnd_cut {data : Array UInt8} {position : Nat}
    (h : data.size < position + EndRecord.length) :
    directoryOfEnd data position = .error .endRecordCut := by
  have hslice : slice? data position EndRecord.length = none := if_neg (Nat.not_le.2 h)
  simp only [directoryOfEnd, hslice, Option.bind_none]

theorem firstSignature?_here {data : Array UInt8} {signature start stop : Nat}
    (h : hasSignature data signature start = true) (hstop : start + 3 < stop) :
    firstSignature? data signature start stop = some start := by
  obtain ⟨count, hcount⟩ : ∃ count, stop - 3 - start = count + 1 := ⟨stop - 3 - start - 1, by omega⟩
  rw [firstSignature?, hcount, findSignature?, if_pos h]

theorem end_fits {ms : List Member} (hl : NarrowLimits ms) : FieldsFit (endRecord ms).fields := by
  have hcount := hl.count
  have hentries : ms.length < 0x10000 := by omega
  simp only [FieldsFit, EndRecord.fields, endRecord, List.forall_mem_cons, byteRange_two,
    byteRange_four, endSignature]
  refine ⟨?_, ?_, ?_, hentries, hentries, hl.directory, hl.offset, ?_,
    fun f hf => absurd hf List.not_mem_nil⟩
  all_goals decide

/-! ## Opening -/

section Opening
variable {ms : List Member} {data : Array UInt8}

theorem central_length_pos (h : ms ≠ []) (offset : Nat) :
    CentralHeader.length ≤ (centralPart offset ms).length := by
  cases ms with
  | nil => exact absurd rfl h
  | cons m rest =>
    rw [centralPart, List.length_append, length_central_bytes]
    omega

/-- No locator is found before the end record, where one would be looked for. -/
theorem locatorBefore?_none {offset position : Nat} {central : Bytes}
    (hs : Stands data offset central) (hp : position = offset + central.length)
    (hlength : Locator64.length ≤ central.length)
    (h : (central.drop (central.length - Locator64.length)).take 4 ≠
      Bytes.ofNumber 4 locatorSignature64) : locatorBefore? data position = none := by
  have hparts : central = central.take (central.length - Locator64.length) ++
      ((central.drop (central.length - Locator64.length)).take 4 ++
        (central.drop (central.length - Locator64.length)).drop 4) := by
    rw [List.take_append_drop, List.take_append_drop]
  have hhead : (central.take (central.length - Locator64.length)).length =
      central.length - Locator64.length := List.length_take_of_le (Nat.sub_le _ _)
  have hfour : ((central.drop (central.length - Locator64.length)).take 4).length = 4 := by
    rw [List.length_take, List.length_drop, Nat.sub_sub_self hlength]
    rfl
  rw [hparts] at hs
  have hslice := hs.right.left.slice hfour
  rw [hhead] at hslice
  have hposition : position - Locator64.length = offset + (central.length - Locator64.length) := by
    omega
  have hno : hasSignature data locatorSignature64 (position - Locator64.length) = false := by
    rw [hasSignature, hposition, hslice]
    exact beq_eq_false_iff_ne.2 fun heq => h (Option.some.inj heq)
  unfold locatorBefore?
  rw [hno]
  split
  · rfl
  · rfl

/-- The directory that the end record of members tells. -/
def writtenDirectory (ms : List Member) : Directory :=
  ⟨(localPart ms).length, 0, ms.length, 0, 0, 0⟩

theorem narrowDirectory_written {position : Nat}
    (hs : Stands data (localPart ms).length (centralPart 0 ms))
    (hp : position = (localPart ms).length + (centralPart 0 ms).length) :
    narrowDirectory data position (endRecord ms) = .ok (writtenDirectory ms) := by
  unfold narrowDirectory
  cases ms with
  | nil =>
    subst hp
    rfl
  | cons m rest =>
    have hlength := central_length_pos (List.cons_ne_nil m rest) 0
    have hlong : (localPart (m :: rest)).length + 46 ≤ position := by
      rw [CentralHeader.length] at hlength
      omega
    have hhead : Stands data (localPart (m :: rest)).length
        (Bytes.ofNumber 4 centralSignature ++ writeFields (m.centralHeader 0).fields.tail) :=
      hs.left.left
    have hfound : firstSignature? data centralSignature (localPart (m :: rest)).length position =
        some (localPart (m :: rest)).length := firstSignature?_here hhead.signature (by omega)
    have hsome : (endRecord (m :: rest)).entries ≠ 0 := Nat.succ_ne_zero rest.length
    have hbefore : ¬position ≤ (endRecord (m :: rest)).directoryOffset :=
      Nat.not_le.2 (Nat.lt_of_lt_of_le (Nat.lt_add_of_pos_right (by decide)) hlong)
    rw [if_neg hsome, if_neg hbefore]
    simp only [endRecord, hfound, Nat.sub_self]
    rfl

theorem directoryOfEnd_written (hl : ClassicLimits ms)
    (hs : Stands data (localPart ms).length
      (centralPart 0 ms ++ writeFields (endRecord ms).fields)) :
    directoryOfEnd data ((localPart ms).length + (centralPart 0 ms).length) =
      .ok (writtenDirectory ms) := by
  have hnarrow := narrowDirectory_written hs.left rfl
  have hsize : ¬data.size < (localPart ms).length + (centralPart 0 ms).length + EndRecord.length +
      (endRecord ms).commentLength := by
    have hfits := hs.right.fits
    rw [length_end] at hfits
    exact Nat.not_lt.2 hfits
  unfold directoryOfEnd
  rw [hs.right.endRecord (end_fits hl.toNarrowLimits)]
  simp only [if_neg hsize]
  split
  -- the offset of the directory is the mark of a wide one, and yet a narrow one
  · rename_i hmark
    have hcount : (endRecord ms).entries ≠ 0xFFFF := Nat.ne_of_lt hl.count
    have hoffset : (localPart ms).length = wideMark := hmark.resolve_left hcount
    have hms : ms ≠ [] := by
      rintro rfl
      exact absurd hoffset (by decide)
    have hlength := central_length_pos hms 0
    rw [locatorBefore?_none hs.left rfl (Nat.le_trans (by decide) hlength) (hl.unmarked hoffset)]
    exact hnarrow
  · exact hnarrow

/-- The directory of members lists them all, whatever their names are and whatever stands in place
of the local part. -/
theorem written_lists {body : Bytes} (hbody : body.length = (localPart ms).length)
    (hf : ∀ m ∈ ms, m.Fits) (hl : ClassicLimits ms) :
    Lists (body ++ centralPart 0 ms ++ writeFields (endRecord ms).fields) (entriesFrom 0 ms) := by
  generalize hbytes : body ++ centralPart 0 ms ++ writeFields (endRecord ms).fields = bytes
  have hs : Stands bytes.toArray (localPart ms).length
      (centralPart 0 ms ++ writeFields (endRecord ms).fields) :=
    ⟨body, [], by simp [← hbytes], hbody⟩
  have hlength : bytes.length =
      (localPart ms).length + (centralPart 0 ms).length + EndRecord.length := by
    rw [← hbytes, List.length_append, List.length_append, hbody, length_end]
  have hhead : Stands bytes.toArray ((localPart ms).length + (centralPart 0 ms).length)
      (Bytes.ofNumber 4 endSignature ++ writeFields (endRecord ms).fields.tail) := hs.right
  have hentries : (writtenDirectory ms).list bytes.toArray = .ok (entriesFrom 0 ms) := by
    have hoffset : 0 + (localPart ms).length < 0x100000000 := by
      rw [Nat.zero_add]
      exact hl.offset
    have hcount : ¬(writtenDirectory ms).entries < (writtenDirectory ms).entriesHere :=
      Nat.not_lt_zero ms.length
    have hdisk : ¬(writtenDirectory ms).disk ≠ (writtenDirectory ms).directoryDisk :=
      not_not_intro rfl
    rw [Directory.list, if_neg hcount, if_neg hdisk]
    exact listEntries_central hs.left hf hl.sizes hoffset
  have hroom : (localPart ms).length + (centralPart 0 ms).length < bytes.length := by
    rw [hlength, EndRecord.length]
    omega
  refine ⟨_, hroom, ⟨hhead.signature, writtenDirectory ms, directoryOfEnd_written hl hs, hentries⟩,
    fun later others hlater _ => ?_⟩
  -- an end record further back would be cut off
  rintro ⟨-, directory, hd, -⟩
  have hcut : bytes.toArray.size < later + EndRecord.length := by
    rw [List.size_toArray, hlength]
    omega
  rw [directoryOfEnd_cut hcut] at hd
  cases hd

/-- An archive opens whatever stands in place of its local part. -/
theorem ofBytes_written {body : Bytes} (hbody : body.length = (localPart ms).length)
    (hf : ∀ m ∈ ms, m.Fits) (hnames : (ms.map Member.name).Nodup) (hl : ClassicLimits ms) :
    Archive.ofBytes (body ++ centralPart 0 ms ++ writeFields (endRecord ms).fields) =
      .ok ⟨(body ++ centralPart 0 ms ++ writeFields (endRecord ms).fields).toArray,
        entriesFrom 0 ms⟩ := by
  refine opens_iff_lists.2 ⟨_, written_lists hbody hf hl, ?_⟩
  rw [← entriesFrom_names 0 ms] at hnames
  rw [mergeEntries_distinct hnames]

end Opening

/-! ## Content -/

section Contents
variable {a : Archive} {m : Member} {offset : Nat}

theorem locate_entry {stored : Bytes}
    (hs : Stands a.data offset (writeFields m.localHeader.fields ++ utf8 m.name ++ stored))
    (hf : m.Fits) :
    a.locate (m.entry offset) = .ok (offset + LocalHeader.length + (utf8 m.name).length) :=
  Stands.located (e := m.entry offset) (h := m.localHeader) hs.left hf.name (Nat.zero_lt_succ _)

theorem content_stored {stored : Bytes}
    (hs : Stands a.data offset (writeFields m.localHeader.fields ++ utf8 m.name ++ stored))
    (hf : m.Fits) (hstored : stored.length = m.stored.length) :
    a.content (m.entry offset) = (m.entry offset).unpack stored := by
  have hlocate := locate_entry hs hf
  have hdata : Stands a.data (offset + LocalHeader.length + (utf8 m.name).length) stored := by
    have h := hs.right
    rw [List.length_append, length_local, ← Nat.add_assoc] at h
    exact h
  have hbytes : a.stored (m.entry offset) (offset + LocalHeader.length + (utf8 m.name).length) =
      stored := by
    have hmin := Nat.min_eq_left hdata.fits
    rw [hstored] at hmin
    have hextract := hdata.extract
    rw [hstored] at hextract
    rw [Archive.stored]
    exact (congrArg _ (congrArg _ hmin)).trans hextract
  have hplain : (m.entry offset).encrypted = false := by
    rcases flags_cases m with h | h
    · simp [Member.entry, Entry.ofHeader, Member.centralHeader, h]
    · simp [Member.entry, Entry.ofHeader, Member.centralHeader, h]
  have hmethod : ¬((m.entry offset).method ≠ storedMethod ∧
      (m.entry offset).method ≠ deflatedMethod) := by
    rintro ⟨hs, hd⟩
    rcases method_cases m with h | h
    · exact hs h
    · exact hd h
  have hcipher : (m.entry offset).hasCipher = false := rfl
  unfold Archive.content Archive.open
  simp only [hlocate, hplain, if_neg hmethod, hcipher, hbytes]
  rfl

/-- What a member stores unpacks to its content. -/
theorem unpack_stored {m : Member} (hf : m.Fits) (offset : Nat) :
    (m.entry offset).unpack m.stored = .ok m.content := by
  have hcrc : (digestBytes m.content).toNat = (m.entry offset).crc := rfl
  have hmethod : (m.entry offset).method = m.method := rfl
  have hcontent : (m.entry offset).decompress m.stored = .ok m.content := by
    have hstores := hf.stores
    unfold Settings.Stores at hstores
    unfold Entry.decompress
    rw [hmethod, Member.method]
    by_cases hc : m.settings.compress = true
    · rw [if_pos hc] at hstores
      obtain ⟨rest, hrest⟩ := hstores
      simp only [if_pos hc, hrest, if_true]
    · rw [if_neg hc] at hstores
      simp only [if_neg hc, hstores, if_neg (show storedMethod ≠ deflatedMethod by decide)]
  unfold Entry.unpack
  simp only [hcontent, if_pos hcrc]

theorem contents_local {ms : List Member} (hs : Stands a.data offset (localPart ms))
    (hf : ∀ m ∈ ms, m.Fits) :
    (entriesFrom offset ms).map (fun e => (e.name, a.content e)) =
      ms.map fun m => (m.name, .ok m.content) := by
  induction ms generalizing offset with
  | nil => rfl
  | cons m rest ih =>
    rw [localPart_cons] at hs
    have hcontent : a.content (m.entry offset) = .ok m.content := by
      rw [content_stored hs.left (hf m List.mem_cons_self) rfl,
        unpack_stored (hf m List.mem_cons_self)]
    rw [entriesFrom, List.map_cons, List.map_cons, entry_name, hcontent,
      ih hs.right fun x hx => hf x (List.mem_cons_of_mem m hx)]

end Contents

end DirDigest.Zip
