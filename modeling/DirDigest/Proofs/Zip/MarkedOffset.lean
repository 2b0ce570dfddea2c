import DirDigest.Proofs.Zip.ReadBack

/-! # A directory at the greatest offset

The greatest offset of a directory is also the mark of a wide one. What stands before the end record
is then looked at, and a name that begins like a locator is taken for one. An archive of a file with
such a name, long enough for its directory to be at that offset, does not open.

* `endSignature_bytes`, `Stands.no_end`: an end signature is told by its third byte.
* `directoryOfEnd_locator`: an end record behind a locator that does not lead back.
* `header_leadsNowhere`: nothing in a header leads to a directory, whatever its checksum is.
* `markedFile`, `markedArchive_unopened`: the archive of a file with any content of one length; it
  does not open, and neither does it with small bytes in the place of the content.
-/

set_option autoImplicit false

namespace DirDigest.Zip

/-! ## End signatures -/

section Signature
variable {data : Array UInt8} {offset position : Nat} {bytes : Bytes}

theorem hasSignature_getElem? {signature : Nat} (h : hasSignature data signature position = true)
    {i : Nat} (hi : i < 4) : data[position + i]? = (Bytes.ofNumber 4 signature)[i]? := by
  have hslice : slice? data position 4 = some (Bytes.ofNumber 4 signature) := beq_iff_eq.1 h
  unfold slice? at hslice
  split at hslice
  · rename_i hfits
    rw [← Option.some.inj hslice, Array.getElem?_toList, Array.getElem?_extract]
    split
    · rfl
    · omega
  · cases hslice

/-- The bytes of an end signature; the third one is in no other signature. -/
theorem endSignature_bytes (h : hasSignature data endSignature position = true) :
    data[position]? = some 0x50 ∧ data[position + 2]? = some 5 ∧ data[position + 3]? = some 6 := by
  have hfirst := @hasSignature_getElem? _ _ _ h 0 (by decide)
  have hthird := @hasSignature_getElem? _ _ _ h 2 (by decide)
  have hfourth := @hasSignature_getElem? _ _ _ h 3 (by decide)
  exact ⟨hfirst, hthird, hfourth⟩

theorem Stands.no_end (h : Stands data offset bytes) (hfive : 5 ∉ bytes)
    (hfrom : offset ≤ position + 2) (hto : position + 2 < offset + bytes.length)
    (listed : List Entry) : ¬LeadsTo data position listed := by
  rintro ⟨hsignature, -⟩
  obtain ⟨b, hb, hbyte⟩ := h.mem hfrom hto
  rw [(endSignature_bytes hsignature).2.1] at hbyte
  exact hfive (Option.some.inj hbyte ▸ hb)

end Signature

/-! ## End records that lead nowhere -/

section Misread
variable {data : Array UInt8} {position : Nat} {r : EndRecord}

/-- An end record behind a locator is none if the locator does not lead back. -/
theorem directoryOfEnd_locator
    (hr : (slice? data position EndRecord.length).bind EndRecord.read? = some r)
    (hcomment : position + EndRecord.length + r.commentLength ≤ data.size)
    (hmark : r.directoryOffset = wideMark) {l : Locator64}
    (hl : locatorBefore? data position = some l)
    (hoffset : position - Locator64.length ≤ l.offset) :
    directoryOfEnd data position = .error .locatorOffset := by
  unfold directoryOfEnd
  rw [hr]
  simp only [if_neg (Nat.not_lt.2 hcomment), hmark, or_true, if_true, hl]
  exact if_pos hoffset

theorem narrowDirectory_disks {d : Directory} (h : narrowDirectory data position r = .ok d) :
    d.entriesHere = 0 ∧ d.disk = r.disk ∧ d.directoryDisk = r.directoryDisk := by
  unfold narrowDirectory at h
  split at h
  · cases h
    exact ⟨rfl, rfl, rfl⟩
  · split at h
    · cases h
    · split at h
      · cases h
        exact ⟨rfl, rfl, rfl⟩
      · cases h

/-- A narrow end record leads nowhere if its directory is on another disk. -/
theorem no_leads_of_disks
    (hr : (slice? data position EndRecord.length).bind EndRecord.read? = some r)
    (hdisk : r.disk ≠ r.directoryDisk) (hno : locatorBefore? data position = none)
    (listed : List Entry) : ¬LeadsTo data position listed := by
  rintro ⟨-, d, hd, hlist⟩
  have hnarrow : narrowDirectory data position r = .ok d := by
    unfold directoryOfEnd at hd
    rw [hr] at hd
    simp only [hno, ite_self] at hd
    split at hd
    · cases hd
    · exact hd
  obtain ⟨hhere, hd, hdirectory⟩ := narrowDirectory_disks hnarrow
  have hcount : ¬d.entries < d.entriesHere := by omega
  have hother : d.disk ≠ d.directoryDisk := by rwa [hd, hdirectory]
  rw [Directory.list, if_neg hcount, if_pos hother] at hlist
  cases hlist

end Misread

/-! ## Headers -/

/-- What may stand behind the checksum of a header, which may be an end signature by chance: there
is no other one, and the end record behind the checksum has its directory on another disk. -/
structure ChecksumTail (tail : Bytes) : Prop where
  noEnd : 5 ∉ tail
  head : ∃ b rest, tail = b :: rest ∧ b ≠ 6
  long : (tail.take 18).length = 18
  disks : ∃ r, EndRecord.read? (Bytes.ofNumber 4 endSignature ++ tail.take 18) = some r ∧
    r.disk ≠ r.directoryDisk

section Header
variable {data : Array UInt8} {offset position : Nat} {lead crc tail : Bytes}

/-- An end signature that covers a part of a checksum, behind the date of a header, is the whole
checksum. -/
theorem signature_is_checksum (hs : Stands data offset ([0x21, 0] ++ crc ++ tail))
    (hcrc : crc.length = 4) (htail : ChecksumTail tail)
    (hsignature : hasSignature data endSignature position = true) (hfrom : offset ≤ position)
    (hto : position < offset + 4) :
    position = offset + 2 ∧ crc = Bytes.ofNumber 4 endSignature := by
  obtain ⟨b, rest, rfl, hb⟩ := htail.head
  obtain ⟨hfirst, -, hfourth⟩ := endSignature_bytes hsignature
  have hdate : Stands data offset [0x21, 0] := hs.left.left
  have hnext : Stands data (offset + 6) (b :: rest) := by
    have h := hs.right
    rwa [List.length_append, hcrc] at h
  have hlate : offset + 2 ≤ position := by
    refine Nat.le_of_not_lt fun hearly => ?_
    obtain ⟨d, hd, hbyte⟩ := hdate.mem hfrom hearly
    obtain rfl : 0x50 = d := Option.some.inj (hfirst.symm.trans hbyte)
    exact absurd hd (by decide)
  have hnotLast : position ≠ offset + 3 := by
    rintro rfl
    have hbyte : data[offset + 6 + 0]? = some b := hnext.getElem? (Nat.zero_lt_succ _)
    exact hb (Option.some.inj (hbyte.symm.trans hfourth))
  obtain rfl : position = offset + 2 := by omega
  have hslice : slice? data (offset + 2) 4 = some crc := hs.left.right.slice hcrc
  rw [hasSignature, hslice] at hsignature
  exact ⟨rfl, Option.some.inj (beq_iff_eq.1 hsignature)⟩

theorem no_leads_at_checksum (hs : Stands data offset ([0x21, 0] ++ crc ++ tail))
    (hcrc : crc.length = 4) (htail : ChecksumTail tail)
    (hno : locatorBefore? data (offset + 2) = none) (hfrom : offset ≤ position)
    (hto : position < offset + 4) (listed : List Entry) : ¬LeadsTo data position listed := by
  rintro ⟨hsignature, hleads⟩
  obtain ⟨rfl, rfl⟩ := signature_is_checksum hs hcrc htail hsignature hfrom hto
  obtain ⟨r, hr, hdisk⟩ := htail.disks
  have hrecord : Stands data (offset + 2)
      (Bytes.ofNumber 4 endSignature ++ tail.take 18 ++ tail.drop 18) := by
    rw [List.append_assoc, List.take_append_drop]
    rw [List.append_assoc] at hs
    exact hs.right
  have hlength : (Bytes.ofNumber 4 endSignature ++ tail.take 18).length = EndRecord.length := by
    rw [List.length_append, length_ofNumber, htail.long]
    rfl
  have hread : (slice? data (offset + 2) EndRecord.length).bind EndRecord.read? = some r := by
    rw [hrecord.left.slice hlength, Option.bind_some, hr]
  exact no_leads_of_disks hread hdisk hno listed ⟨hsignature, hleads⟩

/-- Nothing in a header leads to a directory. -/
theorem header_leadsNowhere (hs : Stands data offset (lead ++ ([0x21, 0] ++ crc ++ tail)))
    (hlead : 5 ∉ lead) (hcrc : crc.length = 4) (htail : ChecksumTail tail)
    (hno : locatorBefore? data (offset + lead.length + 2) = none) (hfrom : offset ≤ position + 2)
    (hto : position + 2 < offset + lead.length + 6 + tail.length) (listed : List Entry) :
    ¬LeadsTo data position listed := by
  have hrest := hs.right
  -- the third byte of the signature is before the date, in it, in the checksum or behind it
  by_cases hbefore : position + 2 < offset + lead.length
  · exact hs.left.no_end hlead hfrom hbefore listed
  by_cases hdate : position + 2 < offset + lead.length + 2
  · exact hrest.left.left.no_end (by decide) (by omega) hdate listed
  by_cases hchecksum : position + 2 < offset + lead.length + 6
  · exact no_leads_at_checksum hrest hcrc htail hno (by omega) (by omega) listed
  · have hnext : Stands data (offset + lead.length + 6) tail := by
      have h := hrest.right
      rwa [List.length_append, hcrc] at h
    exact hnext.no_end htail.noEnd (by omega) hto listed

end Header

/-! ## The file -/

/-- A name that begins like a locator and is as long as one. -/
def locatorName : String := "PK\x06\x07aaaaaaaaaaaaaaaa"

/-- A file under that name. -/
def markedFile (content : Bytes) : Member := ⟨locatorName, content, content, {}, fileBits⟩

/-- The length of a content behind which the directory is at the greatest offset. -/
def markedLength : Nat := 0xFFFFFFCD

/-- The local header of the file up to the date. -/
def localLead : Bytes := [0x50, 0x4B, 3, 4, 0x14, 0, 0, 0, 0, 0, 0, 0]

/-- The local header behind the checksum, and the name. -/
def localTail : Bytes :=
  [0xCD, 0xFF, 0xFF, 0xFF, 0xCD, 0xFF, 0xFF, 0xFF, 0x14, 0, 0, 0] ++ utf8 locatorName

/-- The directory entry of the file up to the date. -/
def centralLead : Bytes := [0x50, 0x4B, 1, 2, 0x1E, 3, 0x14, 0, 0, 0, 0, 0, 0, 0]

/-- The directory entry behind the checksum, and the name. -/
def centralTail : Bytes :=
  [0xCD, 0xFF, 0xFF, 0xFF, 0xCD, 0xFF, 0xFF, 0xFF, 0x14, 0, 0, 0, 0, 0, 0, 0, 0, 0, 0, 0, 0xA4,
   0x81, 0, 0, 0, 0] ++ utf8 locatorName

/-- The checksum of a content, as it is written. -/
def checksumBytes (content : Bytes) : Bytes := Bytes.ofNumber 4 (digestBytes content).toNat

theorem utf8_locatorName :
    utf8 locatorName = [0x50, 0x4B, 6, 7] ++ List.replicate 16 0x61 := by decide +kernel

theorem length_locatorName : (utf8 locatorName).length = 20 := by
  rw [utf8_locatorName]
  rfl

theorem localTail_ends : ChecksumTail localTail := by
  rw [localTail, utf8_locatorName]
  exact ⟨by decide, ⟨_, _, rfl, by decide⟩, rfl, ⟨_, rfl, by decide⟩⟩

theorem centralTail_ends : ChecksumTail centralTail := by
  rw [centralTail, utf8_locatorName]
  exact ⟨by decide, ⟨_, _, rfl, by decide⟩, rfl, ⟨_, rfl, by decide⟩⟩

theorem markedFile_flags (content : Bytes) : (markedFile content).flags = 0 := by
  simp only [Member.flags, markedFile, utf8_locatorName]
  decide

theorem members_markedFile (compress : Compressor) (content : Bytes) :
    members compress [.file locatorName content] = .ok [markedFile content] := by
  have hname : ¬0xFFFF < (utf8 locatorName).length := by
    rw [length_locatorName]
    decide
  have hadd : addMember [] (markedFile content) = .ok [markedFile content] := by
    rw [addMember, List.any_nil, if_neg Bool.false_ne_true]
    exact if_neg hname
  have hstep : Draft.step compress {} (.file locatorName content) =
      .ok { members := [markedFile content] } :=
    congrArg (Except.map fun members => ({ members := members } : Draft)) hadd
  rw [members, List.foldlM_cons, hstep]
  rfl

/-- The archive of the file, with `stored` in the place of its content. -/
def markedArchive (content stored : Bytes) : Bytes :=
  writeFields (markedFile content).localHeader.fields ++ utf8 locatorName ++ stored ++
    centralPart 0 [markedFile content] ++ writeFields (endRecord [markedFile content]).fields

theorem writeArchive_markedFile (content : Bytes) :
    writeArchive [markedFile content] = markedArchive content content := by
  rw [writeArchive, localPart_cons, markedArchive]
  exact congrArg (· ++ _ ++ _) (List.append_nil _)

theorem markedArchive_injective {content stored stored' : Bytes}
    (h : markedArchive content stored = markedArchive content stored') : stored = stored' :=
  List.append_cancel_left (List.append_cancel_right (List.append_cancel_right h))

section Marked
variable {content : Bytes} (hlength : content.length = markedLength)
include hlength

theorem markedFile_local : writeFields (markedFile content).localHeader.fields ++ utf8 locatorName =
    localLead ++ ([0x21, 0] ++ checksumBytes content ++ localTail) := by
  have hfields : (markedFile content).localHeader.fields =
      [(4, localSignature), (2, 20), (2, 0), (2, storedMethod), (2, 0)] ++
        ([(2, 0x21)] ++ [(4, (digestBytes content).toNat)] ++
          [(4, markedLength), (4, markedLength), (2, 20), (2, 0)]) := by
    simp only [LocalHeader.fields, Member.localHeader, markedFile_flags]
    simp only [markedFile, hlength, length_locatorName]
    rfl
  rw [hfields]
  simp only [writeFields_append]
  rfl

theorem markedFile_central : centralPart 0 [markedFile content] =
    centralLead ++ ([0x21, 0] ++ checksumBytes content ++ centralTail) := by
  have hfields : ((markedFile content).centralHeader 0).fields =
      [(4, centralSignature), (2, 0x031e), (2, 20), (2, 0), (2, storedMethod), (2, 0)] ++
        ([(2, 0x21)] ++ [(4, (digestBytes content).toNat)] ++
          [(4, markedLength), (4, markedLength), (2, 20), (2, 0), (2, 0), (2, 0), (2, 0),
           (4, 0x81A40000), (4, 0)]) := by
    simp only [CentralHeader.fields, Member.centralHeader, markedFile_flags]
    simp only [markedFile, hlength, length_locatorName]
    rfl
  rw [centralPart, Member.centralBytes, hfields]
  simp only [writeFields_append]
  rfl

theorem length_markedFile_central : (centralPart 0 [markedFile content]).length = 66 := by
  rw [markedFile_central hlength]
  simp only [List.length_append, centralTail, length_locatorName, checksumBytes, length_ofNumber]
  rfl

theorem markedFile_offset : (localPart [markedFile content]).length = wideMark := by
  have hpart : (localPart [markedFile content]).length =
      LocalHeader.length + 20 + markedLength := by
    rw [localPart_cons, List.length_append, Member.localBytes, List.length_append,
      List.length_append, length_local, ← length_locatorName, ← hlength]
    rfl
  rw [hpart]
  rfl

theorem markedFile_limits : NarrowLimits [markedFile content] := by
  have hcount : 1 < 0xFFFF := by decide
  refine ⟨hcount, fun m hm => ?_, ?_, ?_⟩
  · have hnarrow : markedLength < 0x100000000 := by decide
    obtain rfl := List.mem_singleton.1 hm
    rw [← hlength] at hnarrow
    exact ⟨hnarrow, hnarrow⟩
  · rw [markedFile_offset hlength]
    decide
  · rw [length_markedFile_central hlength]
    decide

/-! ## The archive -/

variable {stored : Bytes} (hstored : stored.length = markedLength)
include hstored

theorem markedArchive_stands :
    Stands (markedArchive content stored).toArray 0
      (localLead ++ ([0x21, 0] ++ checksumBytes content ++ localTail)) ∧
    Stands (markedArchive content stored).toArray 50 stored ∧
    Stands (markedArchive content stored).toArray wideMark
      (centralLead ++ ([0x21, 0] ++ checksumBytes content ++ centralTail)) ∧
    Stands (markedArchive content stored).toArray (wideMark + 66)
      (writeFields (endRecord [markedFile content]).fields) ∧
    (markedArchive content stored).toArray.size = wideMark + 66 + EndRecord.length := by
  have hall := stands_whole (markedArchive content stored)
  have hhead : (writeFields (markedFile content).localHeader.fields ++ utf8 locatorName).length =
      50 := by
    rw [List.length_append, length_local, length_locatorName]
    rfl
  have hbody : (writeFields (markedFile content).localHeader.fields ++ utf8 locatorName ++
      stored).length = wideMark := by
    rw [List.length_append, hhead, hstored]
    rfl
  rw [← markedFile_local hlength, ← markedFile_central hlength]
  refine ⟨hall.left.left.left, ?_, ?_, ?_, ?_⟩
  · have h := hall.left.left.right
    rwa [hhead, Nat.zero_add] at h
  · have h := hall.left.right
    rwa [hbody, Nat.zero_add] at h
  · have h := hall.right
    rwa [List.length_append, hbody, length_markedFile_central hlength, Nat.zero_add] at h
  · rw [List.size_toArray, markedArchive, List.length_append, List.length_append, hbody,
      length_markedFile_central hlength, length_end]

/-- The name before the end record is taken for a locator. -/
theorem markedArchive_locator : locatorBefore? (markedArchive content stored).toArray
    (wideMark + 66) = some ⟨0x61616161, 0x6161616161616161, 0x61616161⟩ := by
  obtain ⟨-, -, hcentral, -, -⟩ := markedArchive_stands hlength hstored
  have hname : Stands (markedArchive content stored).toArray (wideMark + 46)
      (utf8 locatorName) := by
    have h := hcentral.right.right.right
    simp only [List.length_append, checksumBytes, length_ofNumber] at h
    exact h
  have hposition : wideMark + 66 - Locator64.length = wideMark + 46 := rfl
  have hsignature : hasSignature (markedArchive content stored).toArray locatorSignature64
      (wideMark + 46) = true := by
    rw [utf8_locatorName] at hname
    exact hname.signature
  have hslice : slice? (markedArchive content stored).toArray (wideMark + 46) Locator64.length =
      some (utf8 locatorName) := hname.slice length_locatorName
  unfold locatorBefore?
  rw [hposition, if_neg (by decide), if_pos hsignature, hslice, utf8_locatorName]
  rfl

/-- The end record is none. -/
theorem markedArchive_end : directoryOfEnd (markedArchive content stored).toArray (wideMark + 66) =
    .error .locatorOffset := by
  obtain ⟨-, -, -, hend, hsize⟩ := markedArchive_stands hlength hstored
  have hread := hend.endRecord (end_fits (markedFile_limits hlength))
  have hpast : wideMark + 66 - Locator64.length ≤ 0x6161616161616161 := by decide
  exact directoryOfEnd_locator hread (Nat.le_of_eq hsize.symm) (markedFile_offset hlength)
    (markedArchive_locator hlength hstored) hpast

variable (hsmall : ∀ b ∈ stored, b < 5)
include hsmall

/-- No locator stands in the directory entry before its checksum, where the content ends. -/
theorem markedArchive_noLocator :
    locatorBefore? (markedArchive content stored).toArray (wideMark + 14 + 2) = none := by
  obtain ⟨-, hcontent, -, -, -⟩ := markedArchive_stands hlength hstored
  have hposition : wideMark + 14 + 2 - Locator64.length = 50 + (markedLength - 4) := rfl
  have hno : hasSignature (markedArchive content stored).toArray locatorSignature64
      (50 + (markedLength - 4)) = false := by
    refine Bool.eq_false_iff.2 fun hsignature => ?_
    have hto : 50 + (markedLength - 4) < 50 + stored.length := by
      rw [hstored]
      decide
    obtain ⟨b, hb, hbyte⟩ := hcontent.mem (Nat.le_add_right _ _) hto
    have hfirst := @hasSignature_getElem? _ _ _ hsignature 0 (by decide)
    rw [Nat.add_zero, hbyte] at hfirst
    obtain rfl : b = 0x50 := Option.some.inj hfirst
    exact absurd (hsmall _ hb) (by decide)
  unfold locatorBefore?
  rw [hposition, hno]
  split
  · rfl
  · rfl

theorem markedArchive_leadsNowhere (position : Nat) (listed : List Entry) :
    ¬LeadsTo (markedArchive content stored).toArray position listed := by
  obtain ⟨hlocal, hcontent, hcentral, hend, hsize⟩ := markedArchive_stands hlength hstored
  have hcrc : (checksumBytes content).length = 4 := length_ofNumber 4 _
  have hstart : wideMark = 50 + stored.length := by
    rw [hstored]
    rfl
  by_cases hinLocal : position + 2 < 50
  · have hno : locatorBefore? (markedArchive content stored).toArray (0 + localLead.length + 2) =
        none := if_pos (by decide)
    exact header_leadsNowhere hlocal (by decide) hcrc localTail_ends hno (Nat.zero_le _) hinLocal
      listed
  by_cases hinContent : position + 2 < wideMark
  · have hfive : 5 ∉ stored := fun hmem => absurd (hsmall 5 hmem) (by decide)
    exact hcontent.no_end hfive (by omega) (by omega) listed
  by_cases hinCentral : position + 2 < wideMark + 66
  · exact header_leadsNowhere hcentral (by decide) hcrc centralTail_ends
      (markedArchive_noLocator hlength hstored hsmall) (by omega) hinCentral listed
  by_cases hinEnd : position < wideMark + 66
  · have hhead : Stands (markedArchive content stored).toArray (wideMark + 66) ([0x50, 0x4B] ++
        ([5, 6] ++ writeFields (endRecord [markedFile content]).fields.tail)) := hend
    have hto : position + 2 < wideMark + 66 + [(0x50 : UInt8), 0x4B].length := by
      rw [List.length_cons, List.length_singleton]
      omega
    exact hhead.left.no_end (by decide) (by omega) hto listed
  rintro ⟨-, d, hd, -⟩
  by_cases hatEnd : position = wideMark + 66
  · rw [hatEnd, markedArchive_end hlength hstored] at hd
    cases hd
  · rw [directoryOfEnd_cut (by omega)] at hd
    cases hd

/-- The archive does not open. -/
theorem markedArchive_unopened (a : Archive) :
    Archive.ofBytes (markedArchive content stored) ≠ .ok a := by
  intro h
  obtain ⟨listed, ⟨position, -, hleads, -⟩, -⟩ := opens_iff_lists.1 h
  exact markedArchive_leadsNowhere hlength hstored hsmall position listed hleads

end Marked

end DirDigest.Zip
