import DirDigest.Path

/-! # Shown byte strings

A byte string is shown on one line unless it has a line feed byte: the bytes of longer characters
never add up to the number of a line feed.

* `utf8_toList`: the bytes of a text are those of its characters.
* `Sequence.Beyond`: what has been read of a character already rules out small numbers.
* `newline_notMem_lossy`, `newline_notMem_display`: no line feed byte, no line feed.
-/

set_option autoImplicit false

namespace DirDigest

/-- The byte that ends a line. -/
def lineFeed : UInt8 := 0x0A

theorem ofNat_ne_newline {n : Nat} (h : n ≠ 10) : Char.ofNat n ≠ '\n' := by
  intro heq
  by_cases hn : n.isValidChar
  · rw [Char.ofNat, dif_pos hn] at heq
    exact h (congrArg Char.toNat heq)
  · rw [Char.ofNat, dif_neg hn] at heq
    exact absurd heq (by decide)

/-! ## Valid texts -/

theorem utf8_toList (s : String) : utf8 s = s.toList.flatMap String.utf8EncodeChar := by
  rw [utf8, ← String.utf8Encode_toList]
  simp [List.utf8Encode]

theorem utf8EncodeChar_ascii :
    ∀ n < 0x80, String.utf8EncodeChar (Char.ofNat n) = [UInt8.ofNat n] := by decide

theorem mem_utf8 {s : String} {c : Char} (h : c ∈ s.toList) {b : UInt8}
    (hb : b ∈ String.utf8EncodeChar c) : b ∈ utf8 s := by
  rw [utf8_toList]
  exact List.mem_flatMap.2 ⟨c, h, hb⟩

/-! ## Other texts -/

/-- Whatever byte comes next, the number of the character is that of no line feed. -/
def Sequence.Beyond (s : Sequence) : Prop :=
  0x80 ≤ s.low.toNat ∧ 16 ≤ s.bits * 64 + (s.low.toNat - 0x80)

/-- Whether a first byte already rules out a line feed. -/
def Lead.Beyond : Lead → Prop
  | .single c => c ≠ '\n'
  | .many s => s.Beyond
  | .invalid => True

theorem lead_beyond {b : UInt8} (h : b ≠ lineFeed) : (Lead.ofByte b).Beyond := by
  have hb : b.toNat ≠ 10 := fun e => h (UInt8.toNat_inj.1 e)
  unfold Lead.ofByte
  simp only
  split
  · exact ofNat_ne_newline hb
  split
  · exact trivial
  split
  · exact ⟨Nat.le_refl _, by simp only; omega⟩
  split
  · by_cases hlow : b.toNat = 0xE0
    · rw [if_pos hlow]
      exact ⟨by simp, by simp⟩
    · rw [if_neg hlow]
      exact ⟨Nat.le_refl _, by simp only; omega⟩
  split
  · by_cases hlow : b.toNat = 0xF0
    · rw [if_pos hlow]
      exact ⟨by simp, by simp⟩
    · rw [if_neg hlow]
      exact ⟨Nat.le_refl _, by simp only; omega⟩
  · exact trivial

/-- A byte that does not continue a character is read as if none had begun. -/
theorem decodeRest_of_not {s : Sequence} {b : UInt8} {rest : Bytes}
    (h : ¬(s.low ≤ b ∧ b ≤ s.high)) :
    s.decodeRest (b :: rest) = replacement :: decodeLossy (b :: rest) := by
  rw [Sequence.decodeRest, if_neg h, decodeLossy]
  cases Lead.ofByte b <;> rfl

theorem Sequence.Beyond.next {s : Sequence} {b : UInt8} (hs : s.Beyond) (hb : s.low ≤ b) :
    16 ≤ s.bits * 64 + (b.toNat - 0x80) := by
  have hlow : s.low.toNat ≤ b.toNat := UInt8.le_iff_toNat_le.1 hb
  have hbits := hs.2
  omega

theorem newline_ne_replacement : '\n' ≠ replacement := by decide

mutual

theorem newline_notMem_decodeLossy (b : Bytes) (h : lineFeed ∉ b) : '\n' ∉ decodeLossy b := by
  match b with
  | [] => exact List.not_mem_nil
  | first :: rest =>
    have hfirst := lead_beyond (List.ne_of_not_mem_cons h).symm
    have hrest : lineFeed ∉ rest := List.not_mem_of_not_mem_cons h
    rw [decodeLossy]
    cases hlead : Lead.ofByte first with
    | single c =>
      rw [hlead] at hfirst
      exact List.not_mem_cons_of_ne_of_not_mem hfirst.symm (newline_notMem_decodeLossy rest hrest)
    | many s =>
      rw [hlead] at hfirst
      exact newline_notMem_decodeRest s rest hfirst hrest
    | invalid =>
      exact List.not_mem_cons_of_ne_of_not_mem newline_ne_replacement
        (newline_notMem_decodeLossy rest hrest)
termination_by (b.length, 0)

theorem newline_notMem_decodeRest (s : Sequence) (b : Bytes) (hs : s.Beyond)
    (h : lineFeed ∉ b) : '\n' ∉ s.decodeRest b := by
  match b with
  | [] => exact List.not_mem_cons_of_ne_of_not_mem newline_ne_replacement List.not_mem_nil
  | first :: rest =>
    have hrest : lineFeed ∉ rest := List.not_mem_of_not_mem_cons h
    by_cases hnext : s.low ≤ first ∧ first ≤ s.high
    · have hbits := hs.next hnext.1
      rw [Sequence.decodeRest, if_pos hnext]
      cases s.missing with
      | zero =>
        have hne : s.bits * 64 + (first.toNat - 0x80) ≠ 10 := by omega
        exact List.not_mem_cons_of_ne_of_not_mem (ofNat_ne_newline hne).symm
          (newline_notMem_decodeLossy rest hrest)
      | succ missing =>
        exact newline_notMem_decodeRest _ rest ⟨Nat.le_refl _, by simp only; omega⟩ hrest
    · rw [decodeRest_of_not hnext]
      exact List.not_mem_cons_of_ne_of_not_mem newline_ne_replacement
        (newline_notMem_decodeLossy (first :: rest) h)
termination_by (b.length, 1)

end

/-! ## Shown on one line -/

theorem newline_notMem_lossy {b : Bytes} (h : lineFeed ∉ b) : '\n' ∉ b.lossy.toList := by
  unfold Bytes.lossy
  split
  · rename_i s hs
    intro hmem
    have hbyte : lineFeed ∈ utf8 s := mem_utf8 hmem (by decide)
    rw [utf8_of_text? hs] at hbyte
    exact h hbyte
  · rw [String.toList_ofList]
    exact newline_notMem_decodeLossy b h

theorem newline_notMem_display {p : Path} (h : lineFeed ∉ p.bytes) :
    '\n' ∉ p.display.toList := newline_notMem_lossy h

end DirDigest
