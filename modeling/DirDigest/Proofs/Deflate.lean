import DirDigest.Deflate.Inflate
import DirDigest.Deflate.Stored

/-! # Decompressing stored streams

* `blocks_writeStored`: reading one stored block, with anything behind it.
* `blocks_writeBlocks`: reading a sequence of them.
* `inflate_deflate`: a compressed byte string decompresses to itself.
-/

set_option autoImplicit false

namespace DirDigest.Deflate

/-! ## One block -/

theorem bytes?_append (bytes rest : Bytes) :
    (⟨[], bytes ++ rest⟩ : BitSource).bytes? bytes.length = some (bytes, ⟨[], rest⟩) := by
  simp [BitSource.bytes?]

/-- The first byte of a stored block holds the mark of the last block and the kind zero. -/
theorem bit?_head (final : Bool) (rest : Bytes) :
    (⟨[], UInt8.ofNat final.toNat :: rest⟩ : BitSource).bit? =
      some (final, ⟨List.replicate 7 false, rest⟩) := by
  cases final <;> rfl

theorem number?_head (rest : Bytes) :
    (⟨List.replicate 7 false, rest⟩ : BitSource).number? 2 =
      some (0, ⟨List.replicate 5 false, rest⟩) := rfl

/-- The two length fields of a stored block. -/
def storedHead (length : Nat) : Bytes :=
  Bytes.ofNumber 2 length ++ Bytes.ofNumber 2 (maxStored - length)

theorem storedHead_length (length : Nat) : (storedHead length).length = 4 := by
  simp [storedHead]

theorem storedHead_fields {length : Nat} (h : length ≤ maxStored) :
    Bytes.toNumber ((storedHead length).take 2) = length ∧
    Bytes.toNumber ((storedHead length).drop 2) = maxStored - length := by
  have hmax : length ≤ 65535 := h
  have hrange : byteRange 2 = 65536 := rfl
  have htake : (storedHead length).take 2 = Bytes.ofNumber 2 length :=
    List.take_left' (length_ofNumber 2 length)
  have hdrop : (storedHead length).drop 2 = Bytes.ofNumber 2 (maxStored - length) :=
    List.drop_left' (length_ofNumber 2 length)
  rw [htake, hdrop, toNumber_ofNumber, toNumber_ofNumber, hrange]
  exact ⟨Nat.mod_eq_of_lt (by omega), Nat.mod_eq_of_lt (by unfold maxStored; omega)⟩

theorem storedBlock_write {bytes : Bytes} (h : bytes.length ≤ maxStored) (output : Array UInt8)
    (held : List Bool) (rest : Bytes) :
    storedBlock output ⟨held, storedHead bytes.length ++ (bytes ++ rest)⟩ =
      ⟨output ++ bytes, .ok ⟨[], rest⟩⟩ := by
  have hhead := bytes?_append (storedHead bytes.length) (bytes ++ rest)
  rw [storedHead_length] at hhead
  obtain ⟨hlength, hrest⟩ := storedHead_fields h
  have hsum : bytes.length + (maxStored - bytes.length) = 0xFFFF := Nat.add_sub_cancel' h
  simp [storedBlock, BitSource.align, hhead, hlength, hrest, hsum, bytes?_append]

theorem writeStored_eq (final : Bool) (bytes rest : Bytes) :
    writeStored final bytes ++ rest =
      UInt8.ofNat final.toNat :: (storedHead bytes.length ++ (bytes ++ rest)) := by
  simp [writeStored, storedHead]

theorem blocks_writeStored {bytes : Bytes} (h : bytes.length ≤ maxStored) (final : Bool)
    (fuel : Nat) (output : Array UInt8) (rest : Bytes) :
    blocks (fuel + 1) output ⟨[], writeStored final bytes ++ rest⟩ =
      if final then ⟨output ++ bytes, .ok ⟨[], rest⟩⟩
      else blocks fuel (output ++ bytes) ⟨[], rest⟩ := by
  rw [writeStored_eq]
  simp only [blocks, bit?_head, block, number?_head, storedBlock_write h]

/-! ## Streams -/

theorem blocks_writeBlocks (count fuel : Nat) (bytes : Bytes) (output : Array UInt8)
    (hlength : bytes.length ≤ (count + 1) * maxStored) (hfuel : count < fuel) :
    blocks fuel output ⟨[], writeBlocks count bytes⟩ = ⟨output ++ bytes, .ok ⟨[], []⟩⟩ := by
  induction count generalizing fuel bytes output with
  | zero =>
    obtain ⟨fuel, rfl⟩ : ∃ n, fuel = n + 1 := ⟨fuel - 1, by omega⟩
    have h := blocks_writeStored (by simpa using hlength) true fuel output []
    simpa [writeBlocks] using h
  | succ count ih =>
    obtain ⟨fuel, rfl⟩ : ∃ n, fuel = n + 1 := ⟨fuel - 1, by omega⟩
    unfold writeBlocks
    split
    · rename_i hshort
      have h := blocks_writeStored hshort true fuel output []
      simpa using h
    -- a full block, and the blocks of what is left
    · have htake : (bytes.take maxStored).length ≤ maxStored := List.length_take_le _ _
      have hdrop : (bytes.drop maxStored).length ≤ (count + 1) * maxStored := by
        rw [List.length_drop]
        rw [Nat.succ_mul (count + 1)] at hlength
        omega
      rw [blocks_writeStored htake false fuel output (writeBlocks count (bytes.drop maxStored))]
      have hwhole : output ++ bytes.take maxStored ++ bytes.drop maxStored = output ++ bytes :=
        Array.ext' (by simp)
      rw [if_neg Bool.false_ne_true, ih fuel _ _ hdrop (by omega), hwhole]

theorem length_writeBlocks (count : Nat) (bytes : Bytes) :
    bytes.length < (writeBlocks count bytes).length := by
  induction count generalizing bytes with
  | zero => simp [writeBlocks, writeStored]; omega
  | succ count ih =>
    unfold writeBlocks
    split
    · simp [writeStored]; omega
    · have h := ih (bytes.drop maxStored)
      rw [List.length_drop] at h
      simp only [writeStored, List.length_append, List.length_cons, length_ofNumber,
        List.length_take]
      omega

theorem inflate_deflate (bytes : Bytes) :
    inflate (deflate bytes) = ⟨bytes.toArray, .ok ⟨[], []⟩⟩ := by
  have hmax : 0 < maxStored := by decide
  have hlength : bytes.length ≤ (bytes.length / maxStored + 1) * maxStored := by
    have hdiv := Nat.div_add_mod bytes.length maxStored
    have hmod := Nat.mod_lt bytes.length hmax
    rw [Nat.succ_mul, Nat.mul_comm]
    omega
  have hcount : bytes.length / maxStored ≤ bytes.length := Nat.div_le_self _ _
  have hlonger := length_writeBlocks (bytes.length / maxStored) bytes
  have hfuel : bytes.length / maxStored < (BitSource.ofBytes (deflate bytes)).size + 1 := by
    simp only [BitSource.size, BitSource.ofBytes, deflate, List.length_nil]
    omega
  unfold inflate
  exact (blocks_writeBlocks _ _ bytes #[] hlength hfuel).trans (by simp)

end DirDigest.Deflate
