import DirDigest.Checksum

/-! # Numbers in reports

* `grouped`: a number in decimal digits, in groups of three.
* `hexDigest`: a digest in hexadecimal digits, at least eight of them.
-/

set_option autoImplicit false

namespace DirDigest

/-- Digits, last one first, with a comma before each further group of three. -/
def groupDigits : List Char → List Char
  | a :: b :: c :: d :: rest => a :: b :: c :: ',' :: groupDigits (d :: rest)
  | short => short

/-- A number in decimal digits, in groups of three. -/
def grouped (n : Nat) : String :=
  String.ofList (groupDigits (Nat.toDigits 10 n).reverse).reverse

/-- The least number of digits of a printed digest. -/
def hexWidth : Nat := 8

/-- A digest in lower case hexadecimal digits, with leading zeros up to eight digits. -/
def hexDigest (d : Digest) : String :=
  let digits := Nat.toDigits 16 d.toNat
  String.ofList (List.replicate (hexWidth - digits.length) '0' ++ digits)

/-- Grouping adds only commas. -/
theorem filter_groupDigits (ds : List Char) (h : ∀ c ∈ ds, c ≠ ',') :
    (groupDigits ds).filter (· != ',') = ds := by
  fun_induction groupDigits ds with
  | case1 a b c d rest ih =>
    have hrest := ih fun x hx => h x (by simp_all)
    have ha := h a (by simp)
    have hb := h b (by simp)
    have hc := h c (by simp)
    simp [ha, hb, hc, hrest]
  | case2 short =>
    exact List.filter_eq_self.2 fun c hc => by simpa using h c hc

end DirDigest
