import DirDigest.Checksum
import Mathlib.Algebra.GroupWithZero.Nat
import Mathlib.Tactic.Common

/-! # What a checksum tells apart

* `shift_xor`, `shift_injective`: a division step is linear over exclusive or, and a bijection since
  the polynomial has the top bit.
* `shifts_even`: low bits that are clear are only moved out.
* `run_eq_shifts`: up to four bytes are absorbed as one number.
* `run_injective`: bytes that follow keep two registers apart.
* `Overwritten`, `digestBytes_overwritten`: the digest tells up to four consecutive bytes that are
  written over.
-/

set_option autoImplicit false

namespace DirDigest

namespace Register

/-! ## One step -/

theorem and_one_eq_one (s : UInt32) : s &&& 1 = 1 ↔ s.toNat % 2 = 1 := by
  rw [← UInt32.toNat_inj, UInt32.toNat_and, UInt32.toNat_one, Nat.and_one_is_mod]

theorem toNat_shiftRight_one (s : UInt32) : (s >>> 1).toNat = s.toNat / 2 := by
  rw [UInt32.toNat_shiftRight]
  exact Nat.shiftRight_eq_div_pow s.toNat 1

theorem shift_odd {s : UInt32} (h : s.toNat % 2 = 1) : shift s = (s >>> 1) ^^^ polynomial :=
  if_pos ((and_one_eq_one s).2 h)

theorem shift_even {s : UInt32} (h : ¬s.toNat % 2 = 1) : shift s = s >>> 1 :=
  if_neg fun hs => h ((and_one_eq_one s).1 hs)

theorem shift_xor (a b : UInt32) : shift (a ^^^ b) = shift a ^^^ shift b := by
  have hodd : (a ^^^ b).toNat % 2 = 1 ↔ ¬(a.toNat % 2 = 1 ↔ b.toNat % 2 = 1) := by
    rw [UInt32.toNat_xor]
    exact Nat.xor_mod_two_eq_one
  have hshift : (a ^^^ b) >>> 1 = (a >>> 1) ^^^ (b >>> 1) := UInt32.shiftRight_xor
  by_cases ha : a.toNat % 2 = 1 <;> by_cases hb : b.toNat % 2 = 1
  · -- the polynomial is added twice
    rw [shift_even fun h => hodd.1 h (iff_of_true ha hb), shift_odd ha, shift_odd hb, hshift,
      UInt32.xor_comm (b >>> 1) polynomial, UInt32.xor_assoc, ← UInt32.xor_assoc polynomial,
      UInt32.xor_self, UInt32.zero_xor]
  · rw [shift_odd (hodd.2 fun h => hb (h.1 ha)), shift_odd ha, shift_even hb, hshift,
      UInt32.xor_assoc, UInt32.xor_comm (b >>> 1), ← UInt32.xor_assoc]
  · rw [shift_odd (hodd.2 fun h => ha (h.2 hb)), shift_even ha, shift_odd hb, hshift,
      UInt32.xor_assoc]
  · rw [shift_even fun h => hodd.1 h (iff_of_false ha hb), shift_even ha, shift_even hb, hshift]

theorem shift_eq_zero {s : UInt32} (h : shift s = 0) : s = 0 := by
  have hlow := toNat_shiftRight_one s
  by_cases hs : s.toNat % 2 = 1
  · -- the top bit of what is left comes from the polynomial alone
    rw [shift_odd hs, UInt32.xor_eq_zero_iff] at h
    rw [h] at hlow
    have hpolynomial : polynomial.toNat = 0xEDB88320 := rfl
    have hbound := s.toNat_lt
    omega
  · rw [shift_even hs] at h
    rw [h, UInt32.toNat_zero] at hlow
    have hzero : s.toNat = 0 := by omega
    rwa [← UInt32.toNat_inj, UInt32.toNat_zero]

theorem shift_injective {a b : UInt32} (h : shift a = shift b) : a = b := by
  rw [← UInt32.xor_eq_zero_iff, ← shift_xor] at h
  exact UInt32.xor_eq_zero_iff.1 (shift_eq_zero h)

/-! ## Several steps -/

theorem shifts_add (m n : Nat) (s : UInt32) : shifts (m + n) s = shifts n (shifts m s) := by
  induction m generalizing s with
  | zero => rw [Nat.zero_add, shifts]
  | succ m ih => rw [Nat.succ_add, shifts, shifts, ih]

theorem shifts_xor (n : Nat) (a b : UInt32) : shifts n (a ^^^ b) = shifts n a ^^^ shifts n b := by
  induction n generalizing a b with
  | zero => rfl
  | succ n ih => simp only [shifts, shift_xor, ih]

theorem shifts_injective {n : Nat} {a b : UInt32} (h : shifts n a = shifts n b) : a = b := by
  induction n generalizing a b with
  | zero => exact h
  | succ n ih => exact shift_injective (ih h)

/-- Low bits that are clear are only moved out. -/
theorem shifts_even (n : Nat) {m : Nat} (hm : 2 ^ n * m < 2 ^ 32) :
    shifts n (.ofNat (2 ^ n * m)) = .ofNat m := by
  induction n with
  | zero => simp [shifts]
  | succ n ih =>
    have hdouble : 2 ^ (n + 1) * m = 2 * (2 ^ n * m) := by rw [Nat.pow_succ', Nat.mul_assoc]
    rw [hdouble] at hm ⊢
    have hstep : shift (.ofNat (2 * (2 ^ n * m))) = .ofNat (2 ^ n * m) := by
      have htwice : (UInt32.ofNat (2 * (2 ^ n * m))).toNat = 2 * (2 ^ n * m) :=
        UInt32.toNat_ofNat_of_lt' hm
      have honce : (UInt32.ofNat (2 ^ n * m)).toNat = 2 ^ n * m :=
        UInt32.toNat_ofNat_of_lt' (Nat.lt_of_le_of_lt (Nat.le_mul_of_pos_left _ Nat.two_pos) hm)
      rw [shift_even (by omega), ← UInt32.toNat_inj, toNat_shiftRight_one, htwice, honce]
      exact Nat.mul_div_cancel_left _ Nat.two_pos
    rw [shifts, hstep]
    exact ih (by omega)

end Register

/-! ## Bytes as a number -/

theorem toNumber_lt (bytes : Bytes) : Bytes.toNumber bytes < 2 ^ (8 * bytes.length) := by
  induction bytes with
  | nil => exact Nat.one_pos
  | cons b rest ih =>
    have hb := b.toNat_lt
    have hpow : 2 ^ (8 * (rest.length + 1)) = 256 * 2 ^ (8 * rest.length) := by
      rw [Nat.mul_succ, Nat.pow_add, Nat.mul_comm]
    rw [Bytes.toNumber, List.length_cons, hpow]
    omega

theorem toNumber_injective {first second : Bytes} (hlength : first.length = second.length)
    (h : Bytes.toNumber first = Bytes.toNumber second) : first = second := by
  induction first generalizing second with
  | nil => exact (List.length_eq_zero_iff.1 hlength.symm).symm
  | cons b rest ih =>
    cases second with
    | nil => cases hlength
    | cons c others =>
      have hb := b.toNat_lt
      have hc := c.toNat_lt
      simp only [Bytes.toNumber] at h
      have hbyte : b = c := UInt8.toNat_inj.1 (by omega)
      have hrest := ih (Nat.succ.inj hlength) (by omega)
      rw [hbyte, hrest]

/-- A byte and a number above it do not share a bit. -/
theorem ofNat_byte_add (b : UInt8) {n : Nat} (hn : b.toNat + 256 * n < 2 ^ 32) :
    UInt32.ofNat (b.toNat + 256 * n) = b.toUInt32 ^^^ .ofNat (256 * n) := by
  have hb : b.toNat < 2 ^ 8 := b.toNat_lt
  have hsum : (UInt32.ofNat (b.toNat + 256 * n)).toNat = 2 ^ 8 * n + b.toNat := by
    rw [UInt32.toNat_ofNat_of_lt' hn]
    omega
  have hhigh : (UInt32.ofNat (256 * n)).toNat = 2 ^ 8 * n :=
    UInt32.toNat_ofNat_of_lt' (Nat.lt_of_le_of_lt (Nat.le_add_left _ _) hn)
  rw [← UInt32.toNat_inj, UInt32.toNat_xor, UInt8.toNat_toUInt32, hsum, hhigh]
  refine Nat.eq_of_testBit_eq fun i => ?_
  rw [Nat.testBit_two_pow_mul_add n hb, Nat.testBit_xor, Nat.testBit_two_pow_mul]
  by_cases hi : i < 8
  · simp [hi, Nat.not_le.2 hi]
  · have hclear : b.toNat.testBit i = false :=
      Nat.testBit_lt_two_pow (Nat.lt_of_lt_of_le hb (Nat.pow_le_pow_right Nat.two_pos (by omega)))
    simp [hi, hclear, Nat.not_lt.1 hi]

namespace Register

/-! ## Byte strings -/

/-- Up to four bytes are absorbed as the number that they write. -/
theorem run_eq_shifts (s : UInt32) {bytes : Bytes} (h : bytes.length ≤ 4) :
    run s bytes = shifts (8 * bytes.length) (s ^^^ .ofNat (Bytes.toNumber bytes)) := by
  induction bytes generalizing s with
  | nil => simp [run, shifts, Bytes.toNumber]
  | cons b rest ih =>
    have hnumber : b.toNat + 256 * Bytes.toNumber rest < 2 ^ 32 :=
      Nat.lt_of_lt_of_le (toNumber_lt (b :: rest)) (Nat.pow_le_pow_right Nat.two_pos (by omega))
    have hrest : UInt32.ofNat (Bytes.toNumber rest) =
        shifts 8 (.ofNat (256 * Bytes.toNumber rest)) := (shifts_even 8 (by omega)).symm
    calc run s (b :: rest)
        = run (shifts 8 (s ^^^ b.toUInt32)) rest := rfl
      _ = shifts (8 * rest.length)
            (shifts 8 (s ^^^ b.toUInt32) ^^^ .ofNat (Bytes.toNumber rest)) :=
          ih _ (Nat.le_of_succ_le h)
      _ = shifts (8 + 8 * rest.length)
            (s ^^^ (b.toUInt32 ^^^ .ofNat (256 * Bytes.toNumber rest))) := by
          rw [hrest, ← shifts_xor, shifts_add, UInt32.xor_assoc]
      _ = shifts (8 * (b :: rest).length) (s ^^^ .ofNat (Bytes.toNumber (b :: rest))) := by
          rw [Bytes.toNumber, ofNat_byte_add b hnumber, List.length_cons, Nat.mul_succ,
            Nat.add_comm]

/-- The register tells up to four bytes from others of the same length. -/
theorem eq_of_run_eq {s : UInt32} {old new : Bytes} (hlength : old.length = new.length)
    (hshort : old.length ≤ 4) (h : run s old = run s new) : old = new := by
  have hbound : ∀ bytes : Bytes, bytes.length ≤ 4 → Bytes.toNumber bytes < 2 ^ 32 := by
    intro bytes hb
    exact Nat.lt_of_lt_of_le (toNumber_lt bytes) (Nat.pow_le_pow_right Nat.two_pos (by omega))
  rw [run_eq_shifts s hshort, run_eq_shifts s (hlength ▸ hshort), ← hlength] at h
  have hnumbers := congrArg UInt32.toNat ((UInt32.xor_right_inj s).1 (shifts_injective h))
  rw [UInt32.toNat_ofNat_of_lt' (hbound old hshort),
    UInt32.toNat_ofNat_of_lt' (hbound new (hlength ▸ hshort))] at hnumbers
  exact toNumber_injective hlength hnumbers

theorem absorb_injective {a b : UInt32} {byte : UInt8} (h : absorb a byte = absorb b byte) :
    a = b :=
  (UInt32.xor_left_inj byte.toUInt32).1 (shifts_injective h)

/-- What follows keeps two registers apart. -/
theorem run_injective {a b : UInt32} {bytes : Bytes} (h : run a bytes = run b bytes) : a = b := by
  induction bytes generalizing a b with
  | nil => exact h
  | cons byte rest ih => exact absorb_injective (ih h)

end Register

/-! ## Digests -/

theorem Checksum.value_injective {c c' : Checksum} (h : c.value = c'.value) : c = c' := by
  have hregister : c.register = c'.register :=
    (UInt32.xor_left_inj 0xFFFFFFFF).1 (UInt32.toUInt64_inj.1 h)
  cases c
  cases c'
  exact congrArg Checksum.mk hregister

/-- A digest has no more than the bits of the register. -/
theorem Checksum.value_lt (c : Checksum) : c.value.toNat < 2 ^ 32 := by
  rw [Checksum.value, UInt32.toNat_toUInt64]
  exact UInt32.toNat_lt _

/-- Whether one byte string is another one with up to four consecutive bytes overwritten. -/
def Overwritten (first second : Bytes) : Prop :=
  ∃ before old new after, first = before ++ old ++ after ∧ second = before ++ new ++ after ∧
    old.length = new.length ∧ old.length ≤ 4 ∧ old ≠ new

theorem Overwritten.length {first second : Bytes} (h : Overwritten first second) :
    first.length = second.length := by
  obtain ⟨before, old, new, after, rfl, rfl, hlength, -, -⟩ := h
  simp [hlength]

/-- The byte string with others written over it from a position on. -/
def Bytes.overwrite (bytes : Bytes) (position : Nat) (new : Bytes) : Bytes :=
  bytes.take position ++ new ++ bytes.drop (position + new.length)

theorem overwrite_middle (front middle back : Bytes) {position : Nat} {new : Bytes}
    (h : position + new.length ≤ middle.length) :
    Bytes.overwrite (front ++ middle ++ back) (front.length + position) new =
      front ++ Bytes.overwrite middle position new ++ back := by
  have htake : (front ++ (middle ++ back)).take (front.length + position) =
      front ++ middle.take position := by
    rw [List.take_length_add_append, List.take_append_of_le_length (by omega)]
  have hdrop : (front ++ (middle ++ back)).drop (front.length + (position + new.length)) =
      middle.drop (position + new.length) ++ back := by
    rw [List.drop_length_add_append, List.drop_append_of_le_length h]
  rw [Bytes.overwrite, Bytes.overwrite, List.append_assoc front, htake, Nat.add_assoc, hdrop]
  simp

theorem overwritten_overwrite {bytes : Bytes} {position : Nat} {new : Bytes}
    (h : position + new.length ≤ bytes.length) (hshort : new.length ≤ 4)
    (hne : bytes.overwrite position new ≠ bytes) :
    Overwritten bytes (bytes.overwrite position new) := by
  have hsplit : bytes = bytes.take position ++ (bytes.drop position).take new.length ++
      bytes.drop (position + new.length) := by
    rw [List.append_assoc, ← List.drop_drop, List.take_append_drop, List.take_append_drop]
  have hlength : ((bytes.drop position).take new.length).length = new.length := by
    rw [List.length_take, List.length_drop]
    omega
  refine ⟨_, _, new, _, hsplit, rfl, hlength, Nat.le_trans (Nat.le_of_eq hlength) hshort, ?_⟩
  intro hold
  rw [hold] at hsplit
  exact hne hsplit.symm

/-- The digest tells the bytes that were there from those that are written over them. -/
theorem digestBytes_overwritten {first second : Bytes} (h : Overwritten first second) :
    digestBytes first ≠ digestBytes second := by
  obtain ⟨before, old, new, after, rfl, rfl, hlength, hshort, hne⟩ := h
  intro heq
  have hrun := congrArg Checksum.register (Checksum.value_injective heq)
  simp only [Checksum.update, Register.run_append] at hrun
  exact hne (Register.eq_of_run_eq hlength hshort (Register.run_injective hrun))

end DirDigest
