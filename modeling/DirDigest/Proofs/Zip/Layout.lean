import DirDigest.Proofs.Text
import DirDigest.Zip.Builder
import DirDigest.Zip.Content
import Mathlib.Algebra.GroupWithZero.Nat

/-! # Where bytes stand in an archive

* `Stands`: a byte string stands at an offset of a file; parts of it stand at their own offsets, and
  `Stands.getElem?` tells their bytes.
* `Stands.central`, `Stands.endRecord`, `Stands.located`: reading a record where its fields stand.
* `nameText_utf8`: the text of a name field that a member has written.
-/

set_option autoImplicit false

namespace DirDigest.Zip

/-- Whether a byte string stands at an offset. -/
def Stands (data : Array UInt8) (offset : Nat) (bytes : Bytes) : Prop :=
  ∃ before after : Bytes, data = (before ++ bytes ++ after).toArray ∧ before.length = offset

theorem stands_whole (bytes : Bytes) : Stands bytes.toArray 0 bytes :=
  ⟨[], [], by rw [List.nil_append, List.append_nil], rfl⟩

section Standing
variable {data : Array UInt8} {offset : Nat} {bytes first second : Bytes}

theorem Stands.left (h : Stands data offset (first ++ second)) : Stands data offset first := by
  obtain ⟨before, after, rfl, hoffset⟩ := h
  exact ⟨before, second ++ after, by simp, hoffset⟩

theorem Stands.right (h : Stands data offset (first ++ second)) :
    Stands data (offset + first.length) second := by
  obtain ⟨before, after, rfl, rfl⟩ := h
  exact ⟨before ++ first, after, by simp, by simp⟩

theorem Stands.slice (h : Stands data offset bytes) {count : Nat} (hc : bytes.length = count) :
    slice? data offset count = some bytes := by
  obtain ⟨before, after, rfl, rfl⟩ := h
  subst hc
  exact slice?_eq_some

theorem Stands.fits (h : Stands data offset bytes) : offset + bytes.length ≤ data.size := by
  obtain ⟨before, after, rfl, rfl⟩ := h
  simp

theorem Stands.extract (h : Stands data offset bytes) :
    (data.extract offset (offset + bytes.length)).toList = bytes := by
  have hslice := h.slice rfl
  unfold slice? at hslice
  rw [if_pos h.fits] at hslice
  exact Option.some.inj hslice

theorem Stands.getElem? (h : Stands data offset bytes) {i : Nat} (hi : i < bytes.length) :
    data[offset + i]? = bytes[i]? := by
  obtain ⟨before, after, rfl, rfl⟩ := h
  rw [List.getElem?_toArray, List.append_assoc, List.getElem?_append_right (Nat.le_add_right _ _),
    Nat.add_sub_cancel_left, List.getElem?_append_left hi]

theorem Stands.mem (h : Stands data offset bytes) {position : Nat}
    (hfrom : offset ≤ position) (hto : position < offset + bytes.length) :
    ∃ b ∈ bytes, data[position]? = some b := by
  obtain ⟨i, rfl⟩ := Nat.exists_eq_add_of_le hfrom
  have hi : i < bytes.length := by omega
  exact ⟨bytes[i], List.getElem_mem hi, (h.getElem? hi).trans (List.getElem?_eq_getElem hi)⟩

theorem Stands.signature {signature : Nat}
    (h : Stands data offset (Bytes.ofNumber 4 signature ++ bytes)) :
    hasSignature data signature offset = true := by
  unfold hasSignature
  rw [h.left.slice (length_ofNumber 4 signature)]
  exact beq_self_eq_true _

end Standing

/-! ## Records -/

/-- Whether every field holds its value. -/
def FieldsFit (fields : List (Nat × Nat)) : Prop := ∀ f ∈ fields, f.2 < byteRange f.1

theorem byteRange_two : byteRange 2 = 0x10000 := rfl

theorem byteRange_four : byteRange 4 = 0x100000000 := rfl

theorem length_writeFields (fields : List (Nat × Nat)) :
    (writeFields fields).length = (fields.map Prod.fst).sum := by
  induction fields with
  | nil => rfl
  | cons f rest ih =>
    rw [writeFields] at ih ⊢
    rw [List.flatMap_cons, List.length_append, length_ofNumber, ih, List.map_cons, List.sum_cons]

theorem writeFields_append (first second : List (Nat × Nat)) :
    writeFields (first ++ second) = writeFields first ++ writeFields second :=
  List.flatMap_append

theorem length_central (h : CentralHeader) :
    (writeFields h.fields).length = CentralHeader.length := by
  rw [length_writeFields]
  simp [CentralHeader.fields, CentralHeader.length]

theorem length_end (r : EndRecord) : (writeFields r.fields).length = EndRecord.length := by
  rw [length_writeFields]
  simp [EndRecord.fields, EndRecord.length]

theorem length_local (h : LocalHeader) : (writeFields h.fields).length = LocalHeader.length := by
  rw [length_writeFields]
  simp [LocalHeader.fields, LocalHeader.length]

theorem central_read? {h : CentralHeader} (hf : FieldsFit h.fields) :
    CentralHeader.read? (writeFields h.fields) = some (centralSignature, h) := by
  have hread := readFields?_writeFields h.fields [] hf
  rw [List.append_nil] at hread
  have hwidths : h.fields.map Prod.fst = CentralHeader.widths := rfl
  unfold CentralHeader.read?
  rw [← hwidths, hread]
  rfl

theorem end_read? {r : EndRecord} (hf : FieldsFit r.fields) :
    EndRecord.read? (writeFields r.fields) = some r := by
  have hread := readFields?_writeFields r.fields [] hf
  rw [List.append_nil] at hread
  have hwidths : r.fields.map Prod.fst = [4, 2, 2, 2, 2, 4, 4, 2] := rfl
  unfold EndRecord.read?
  rw [← hwidths, hread]
  rfl

theorem Stands.central {data : Array UInt8} {offset : Nat} {h : CentralHeader} {rest : Bytes}
    (hs : Stands data offset (writeFields h.fields ++ rest)) (hf : FieldsFit h.fields) :
    (slice? data offset CentralHeader.length).bind CentralHeader.read? =
      some (centralSignature, h) := by
  rw [hs.left.slice (length_central h), Option.bind_some, central_read? hf]

theorem Stands.endRecord {data : Array UInt8} {offset : Nat} {r : EndRecord}
    (hs : Stands data offset (writeFields r.fields)) (hf : FieldsFit r.fields) :
    (slice? data offset EndRecord.length).bind EndRecord.read? = some r := by
  rw [hs.slice (length_end r), Option.bind_some, end_read? hf]

/-- The fields of a local header before the lengths of the name and of the extra field. -/
def LocalHeader.fixedFields (h : LocalHeader) : List (Nat × Nat) :=
  [(4, localSignature), (2, 20), (2, h.flags), (2, h.method), (2, 0), (2, h.date), (4, h.crc),
   (4, h.compressedSize), (4, h.size)]

theorem local_lengths {h : LocalHeader} (hname : h.nameLength < 0x10000)
    (hextra : h.extraLength < 0x10000) :
    Bytes.toNumber (((writeFields h.fields).drop 26).take 2) = h.nameLength ∧
    Bytes.toNumber (((writeFields h.fields).drop 28).take 2) = h.extraLength := by
  have hsplit : writeFields h.fields = writeFields h.fixedFields ++
      (Bytes.ofNumber 2 h.nameLength ++ Bytes.ofNumber 2 h.extraLength) := by
    rw [show h.fields = h.fixedFields ++ [(2, h.nameLength), (2, h.extraLength)] from rfl,
      writeFields_append]
    simp [writeFields]
  have hfixed : (writeFields h.fixedFields).length = 26 := by
    rw [length_writeFields]
    simp [LocalHeader.fixedFields]
  have hdrop : (writeFields h.fields).drop 26 =
      Bytes.ofNumber 2 h.nameLength ++ Bytes.ofNumber 2 h.extraLength := by
    rw [hsplit]
    exact List.drop_left' hfixed
  have htail : (writeFields h.fields).drop 28 = Bytes.ofNumber 2 h.extraLength := by
    rw [show 28 = 26 + 2 from rfl, ← List.drop_drop, hdrop]
    exact List.drop_left' (length_ofNumber 2 h.nameLength)
  have htake : (Bytes.ofNumber 2 h.extraLength).take 2 = Bytes.ofNumber 2 h.extraLength :=
    List.take_of_length_le (Nat.le_of_eq (length_ofNumber 2 h.extraLength))
  rw [hdrop, htail, List.take_left' (length_ofNumber 2 h.nameLength), htake, toNumber_ofNumber,
    toNumber_ofNumber, byteRange_two]
  exact ⟨Nat.mod_eq_of_lt hname, Nat.mod_eq_of_lt hextra⟩

theorem Stands.located {a : Archive} {e : Entry} {h : LocalHeader} {rest : Bytes}
    (hs : Stands a.data e.offset (writeFields h.fields ++ rest)) (hname : h.nameLength < 0x10000)
    (hextra : h.extraLength < 0x10000) :
    a.locate e = .ok (e.offset + LocalHeader.length + h.nameLength + h.extraLength) := by
  have hfields : writeFields h.fields =
      Bytes.ofNumber 4 localSignature ++ writeFields h.fields.tail := rfl
  have hsignature : hasSignature a.data localSignature e.offset = true := by
    have hs' := hs.left
    rw [hfields] at hs'
    exact hs'.signature
  obtain ⟨hn, he⟩ := local_lengths hname hextra
  simp only [Archive.locate, hs.left.slice (length_local h), hsignature, if_true, hn, he]

/-! ## Names -/

theorem codePageText_ascii {raw : Bytes} (h : ∀ b ∈ raw, b < 0x80) :
    utf8 (codePageText raw) = raw := by
  rw [codePageText, utf8_toList, String.toList_ofList]
  induction raw with
  | nil => rfl
  | cons b rest ih =>
    have hb : b < 0x80 := h b List.mem_cons_self
    have hc : codePageChar b = Char.ofNat b.toNat := if_pos hb
    rw [List.map_cons, List.flatMap_cons, hc, utf8EncodeChar_ascii _ (UInt8.lt_iff_toNat_lt.1 hb),
      UInt8.ofNat_toNat, ih fun c hrest => h c (List.mem_cons_of_mem b hrest)]
    rfl

/-- The name of a member is read back, from either encoding. -/
theorem nameText_utf8 (m : Member) : nameText m.flags (utf8 m.name) = m.name := by
  unfold nameText Member.flags
  -- a name of ASCII bytes is written without the flag and read in the old code page
  by_cases hascii : (utf8 m.name).all (· < 0x80) = true
  · rw [if_pos hascii, if_neg (by decide)]
    refine utf8_injective (codePageText_ascii fun b hb => ?_)
    simpa using List.all_eq_true.1 hascii b hb
  · rw [if_neg hascii, if_pos (by decide), lossy_utf8]

end DirDigest.Zip
