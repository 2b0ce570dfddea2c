import DirDigest.Proofs.Checksum
import Mathlib.Algebra.CharP.Two
import Mathlib.Algebra.Field.ZMod
import Mathlib.Algebra.Polynomial.Div
import Mathlib.Data.Nat.Bitwise
import Mathlib.Tactic.LinearCombination

/-! # The checksum as a remainder

Bits are coefficients over the field of two elements. A byte string writes a polynomial, the first
bit at the highest power and the lowest bit of each byte first; its CRC-32 is the remainder of that
polynomial, moved up by 32 powers, after a division by the generator.

* `mirrored`, `messagePolynomial`, `generator`: the polynomials of a word, of a byte string, and of
  the division.
* `IsCrc32`: the IEEE CRC-32 of a byte string, without a register.
* `mirrored_shift`, `mirrored_run`: a division step multiplies by `X` and takes the generator off.
* `isCrc32_iff`: the digest of a byte string is its CRC-32, and nothing else is.
-/

set_option autoImplicit false

open Polynomial

namespace DirDigest

/-! ## Words and byte strings as polynomials -/

/-- The polynomial that the low bits of a number write, the lowest bit at the highest power. -/
noncomputable def mirrored : (width : Nat) → Nat → (ZMod 2)[X]
  | 0, _ => 0
  | width + 1, n => (if n % 2 = 1 then X ^ width else 0) + mirrored width (n / 2)

/-- The polynomial of a byte string. -/
noncomputable def messagePolynomial : Bytes → (ZMod 2)[X]
  | [] => 0
  | b :: rest => X ^ (8 * rest.length) * mirrored 8 b.toNat + messagePolynomial rest

/-- The generator of the IEEE checksum. -/
noncomputable def generator : (ZMod 2)[X] :=
  X ^ 32 + X ^ 26 + X ^ 23 + X ^ 22 + X ^ 16 + X ^ 12 + X ^ 11 + X ^ 10 + X ^ 8 + X ^ 7 + X ^ 5 +
    X ^ 4 + X ^ 2 + X + 1

/-- Whether a digest is the IEEE CRC-32 of a byte string: the division starts with all bits set, and
the bits of its remainder are complemented. -/
structure IsCrc32 (bytes : Bytes) (digest : Digest) : Prop where
  narrow : digest.toNat < 2 ^ 32
  remainder : mirrored 32 (digest.toNat ^^^ 0xFFFFFFFF) =
    (X ^ 32 * messagePolynomial bytes + X ^ (8 * bytes.length) * mirrored 32 0xFFFFFFFF) %ₘ
      generator

theorem mirrored_xor (width a b : Nat) :
    mirrored width (a ^^^ b) = mirrored width a + mirrored width b := by
  induction width generalizing a b with
  | zero => simp [mirrored]
  | succ width ih =>
    have htwice : (X : (ZMod 2)[X]) ^ width + X ^ width = 0 := CharTwo.add_self_eq_zero _
    have hodd : (a ^^^ b) % 2 = 1 ↔ ¬(a % 2 = 1 ↔ b % 2 = 1) := Nat.xor_mod_two_eq_one
    simp only [mirrored, Nat.xor_div_two, ih, hodd]
    by_cases ha : a % 2 = 1 <;> by_cases hb : b % 2 = 1
    · simp only [ha, hb, not_true_eq_false, if_true, if_false]
      linear_combination -htwice
    · simp only [ha, hb, iff_false, not_true_eq_false, not_false_eq_true, if_true, if_false]
      ring
    · simp only [ha, hb, iff_true, not_false_eq_true, if_true, if_false]
      ring
    · simp only [ha, hb, not_true_eq_false, if_false]
      ring

theorem degree_mirrored (width n : Nat) : (mirrored width n).degree < width := by
  induction width generalizing n with
  | zero => simp [mirrored]
  | succ width ih =>
    have hwidth : (width : WithBot ℕ) < (width + 1 : ℕ) := by exact_mod_cast Nat.lt_succ_self width
    refine lt_of_le_of_lt (degree_add_le _ _) (max_lt ?_ ((ih _).trans hwidth))
    split
    · rwa [degree_X_pow]
    · exact lt_of_eq_of_lt degree_zero (WithBot.bot_lt_coe _)

/-- A number without a bit at the far end may be written one power higher. -/
theorem X_mul_mirrored {width n : Nat} (h : n < 2 ^ width) :
    X * mirrored width n = mirrored (width + 1) n := by
  induction width generalizing n with
  | zero =>
    obtain rfl : n = 0 := by omega
    simp [mirrored]
  | succ width ih =>
    have hhalf : n / 2 < 2 ^ width := by omega
    rw [mirrored, mul_add, ih hhalf, mul_ite, mul_zero, ← pow_succ']
    rfl

theorem X_pow_mul_mirrored {width n : Nat} (h : n < 2 ^ width) (k : Nat) :
    X ^ k * mirrored width n = mirrored (width + k) n := by
  induction k with
  | zero => rw [pow_zero, one_mul, Nat.add_zero]
  | succ k ih =>
    have hwide : n < 2 ^ (width + k) :=
      Nat.lt_of_lt_of_le h (Nat.pow_le_pow_right Nat.two_pos (Nat.le_add_right width k))
    rw [pow_succ', mul_assoc, ih, X_mul_mirrored hwide, Nat.add_assoc]

theorem eq_zero_of_mirrored {width n : Nat} (hn : n < 2 ^ width) (h : mirrored width n = 0) :
    n = 0 := by
  induction width generalizing n with
  | zero => omega
  | succ width ih =>
    rw [mirrored] at h
    have hhigh : (mirrored width (n / 2)).coeff width = 0 :=
      coeff_eq_zero_of_degree_lt (degree_mirrored width _)
    have heven : ¬n % 2 = 1 := by
      intro hodd
      have hcoeff := congrArg (coeff · width) h
      simp [hodd, hhigh] at hcoeff
    rw [if_neg heven, zero_add] at h
    have hhalf := ih (by omega) h
    omega

theorem mirrored_injective {width a b : Nat} (ha : a < 2 ^ width) (hb : b < 2 ^ width)
    (h : mirrored width a = mirrored width b) : a = b := by
  have hsum : mirrored width (a ^^^ b) = 0 := by
    rw [mirrored_xor, h]
    exact CharTwo.add_self_eq_zero _
  exact Nat.xor_eq_zero_iff.1 (eq_zero_of_mirrored (Nat.xor_lt_two_pow ha hb) hsum)

/-! ## The generator -/

theorem generator_eq : generator = X ^ 32 + mirrored 32 polynomial.toNat := by
  have hnumber : polynomial.toNat = 0xEDB88320 := rfl
  rw [hnumber, generator]
  simp [mirrored]
  ring

theorem generator_monic : generator.Monic := by
  rw [generator_eq]
  exact monic_X_pow_add (degree_mirrored 32 _)

theorem degree_generator : generator.degree = 32 := by
  rw [generator_eq, degree_add_eq_left_of_degree_lt, degree_X_pow]
  · rfl
  · rw [degree_X_pow]
    exact degree_mirrored 32 _

/-! ## The register divides -/

/-- The polynomial of a register. -/
noncomputable def Register.toPolynomial (s : UInt32) : (ZMod 2)[X] := mirrored 32 s.toNat

theorem toPolynomial_xor (a b : UInt32) :
    Register.toPolynomial (a ^^^ b) = Register.toPolynomial a + Register.toPolynomial b := by
  rw [Register.toPolynomial, UInt32.toNat_xor, mirrored_xor]
  rfl

/-- A division step multiplies by `X` and takes the generator off where that is due. -/
theorem toPolynomial_shift (s : UInt32) :
    generator ∣ X * Register.toPolynomial s - Register.toPolynomial (Register.shift s) := by
  have hhalf : s.toNat / 2 < 2 ^ 31 := by
    have hs := s.toNat_lt
    omega
  have hmoved : X * Register.toPolynomial s =
      (if s.toNat % 2 = 1 then X ^ 32 else 0) + Register.toPolynomial (s >>> 1) := by
    rw [Register.toPolynomial, Register.toPolynomial, Register.toNat_shiftRight_one,
      ← X_mul_mirrored hhalf, mirrored, mul_add, mul_ite, mul_zero, ← pow_succ']
  by_cases hodd : s.toNat % 2 = 1
  · rw [hmoved, if_pos hodd, Register.shift_odd hodd, toPolynomial_xor]
    refine ⟨1, ?_⟩
    have htwice : Register.toPolynomial polynomial + Register.toPolynomial polynomial = 0 :=
      CharTwo.add_self_eq_zero _
    rw [generator_eq, ← Register.toPolynomial]
    linear_combination -htwice
  · rw [hmoved, if_neg hodd, Register.shift_even hodd, zero_add, sub_self]
    exact dvd_zero _

theorem toPolynomial_shifts (n : Nat) (s : UInt32) :
    generator ∣ X ^ n * Register.toPolynomial s -
      Register.toPolynomial (Register.shifts n s) := by
  induction n generalizing s with
  | zero => simp [Register.shifts]
  | succ n ih =>
    have hstep := (toPolynomial_shift s).mul_left (X ^ n)
    have hsum := hstep.add (ih (Register.shift s))
    rw [Register.shifts]
    convert hsum using 1
    ring

theorem toPolynomial_byte (b : UInt8) :
    Register.toPolynomial b.toUInt32 = X ^ 24 * mirrored 8 b.toNat := by
  rw [X_pow_mul_mirrored b.toNat_lt, Register.toPolynomial, UInt8.toNat_toUInt32]

theorem toPolynomial_run (s : UInt32) (bytes : Bytes) :
    generator ∣ X ^ 32 * messagePolynomial bytes +
      X ^ (8 * bytes.length) * Register.toPolynomial s -
        Register.toPolynomial (Register.run s bytes) := by
  induction bytes generalizing s with
  | nil => simp [messagePolynomial, Register.run]
  | cons b rest ih =>
    -- what the byte leaves in the register is still to be multiplied for the bytes behind it
    have hbyte := (toPolynomial_shifts 8 (s ^^^ b.toUInt32)).mul_left (X ^ (8 * rest.length))
    have hsum := hbyte.add (ih (Register.absorb s b))
    rw [toPolynomial_xor, toPolynomial_byte] at hsum
    convert hsum using 1
    simp only [messagePolynomial, List.length_cons, Register.absorb, Register.run, List.foldl_cons]
    ring

theorem mirrored_run (s : UInt32) (bytes : Bytes) :
    Register.toPolynomial (Register.run s bytes) =
      (X ^ 32 * messagePolynomial bytes + X ^ (8 * bytes.length) * Register.toPolynomial s) %ₘ
        generator := by
  have hsmall : Register.toPolynomial (Register.run s bytes) %ₘ generator =
      Register.toPolynomial (Register.run s bytes) := by
    refine (modByMonic_eq_self_iff generator_monic).2 ?_
    rw [degree_generator]
    exact degree_mirrored 32 _
  rw [modByMonic_eq_of_dvd_sub generator_monic (toPolynomial_run s bytes), hsmall]

/-! ## Digests -/

theorem isCrc32_digestBytes (bytes : Bytes) : IsCrc32 bytes (digestBytes bytes) := by
  refine ⟨Checksum.value_lt _, ?_⟩
  have hregister : (digestBytes bytes).toNat ^^^ 0xFFFFFFFF =
      (Register.run 0xFFFFFFFF bytes).toNat := by
    rw [digestBytes, Checksum.value, UInt32.toNat_toUInt64, UInt32.toNat_xor]
    exact Nat.xor_xor_cancel_right _ _
  rw [hregister]
  exact mirrored_run 0xFFFFFFFF bytes

/-- The digest of a byte string is its CRC-32, and nothing else is. -/
theorem isCrc32_iff {bytes : Bytes} {digest : Digest} :
    IsCrc32 bytes digest ↔ digest = digestBytes bytes := by
  constructor
  · intro h
    have hd := isCrc32_digestBytes bytes
    have hones : (0xFFFFFFFF : Nat) < 2 ^ 32 := by decide
    have hbits := mirrored_injective (Nat.xor_lt_two_pow h.narrow hones)
      (Nat.xor_lt_two_pow hd.narrow hones) (h.remainder.trans hd.remainder.symm)
    exact UInt64.toNat_inj.1 (Nat.xor_left_inj.1 hbits)
  · rintro rfl
    exact isCrc32_digestBytes bytes

end DirDigest
