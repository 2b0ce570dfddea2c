import DirDigest.Report.Numeral

/-! # Numerals read back

* `number?`: the number that digits write in a base, up to sixteen.
* `number?_toDigits`: it undoes the writing of a number.
* `number?_hexDigest`, `le_length_hexDigest`: a printed digest is a hexadecimal numeral, of eight
  digits or more.
* `notMem_grouped`: a grouped number has digits and commas only.
-/

set_option autoImplicit false

namespace DirDigest

/-! ## Digits -/

/-- The value of a digit. Letters count in either case. -/
def digitValue? (c : Char) : Option Nat :=
  if '0' ≤ c ∧ c ≤ '9' then some (c.toNat - 48)
  else if 'a' ≤ c ∧ c ≤ 'f' then some (c.toNat - 87)
  else if 'A' ≤ c ∧ c ≤ 'F' then some (c.toNat - 55)
  else none

/-- A number continued by the digits of a text. -/
def numberFrom? (base : Nat) : Nat → List Char → Option Nat
  | n, [] => some n
  | n, c :: cs => do
    let value ← digitValue? c
    if value < base then numberFrom? base (base * n + value) cs else none

/-- The number that a text writes, if it has digits and nothing else. -/
def number? (base : Nat) (cs : List Char) : Option Nat :=
  if cs = [] then none else numberFrom? base 0 cs

theorem digitValue?_digitChar : ∀ n < 16, digitValue? (Nat.digitChar n) = some n := by decide

section Numbers
variable {base n m : Nat} {cs ds : List Char}

theorem numberFrom?_append : numberFrom? base n (cs ++ ds) =
    (numberFrom? base n cs).bind fun m => numberFrom? base m ds := by
  induction cs generalizing n with
  | nil => rfl
  | cons c cs ih =>
    rw [List.cons_append, numberFrom?, numberFrom?]
    cases digitValue? c with
    | none => rfl
    | some value =>
      by_cases hv : value < base
      · simpa [hv] using ih
      · simp [hv]

theorem numberFrom?_digitChar (hbase : base ≤ 16) (hm : m < base) :
    numberFrom? base n [Nat.digitChar m] = some (base * n + m) := by
  simp [numberFrom?, digitValue?_digitChar m (Nat.lt_of_lt_of_le hm hbase), hm]

theorem numberFrom?_replicate (hbase : 0 < base) (count : Nat) :
    numberFrom? base 0 (List.replicate count '0') = some 0 := by
  have hzero : digitValue? '0' = some 0 := rfl
  induction count with
  | zero => rfl
  | succ count ih => simpa [List.replicate_succ, numberFrom?, hzero, hbase] using ih

theorem numberFrom?_toDigits (hbase : 1 < base) (hle : base ≤ 16) (n : Nat) :
    numberFrom? base 0 (Nat.toDigits base n) = some n := by
  induction n using Nat.strongRecOn with
  | ind n ih =>
    rw [Nat.toDigits_eq_if hbase]
    split
    · rename_i hn
      rw [numberFrom?_digitChar hle hn, Nat.mul_zero, Nat.zero_add]
    · rename_i hn
      have hquotient : n / base < n := Nat.div_lt_self (by omega) hbase
      rw [numberFrom?_append, ih _ hquotient, Option.bind_some,
        numberFrom?_digitChar hle (Nat.mod_lt _ (by omega)), Nat.div_add_mod]

theorem number?_toDigits (hbase : 1 < base) (hle : base ≤ 16) (n : Nat) :
    number? base (Nat.toDigits base n) = some n := by
  rw [number?, if_neg Nat.toDigits_ne_nil, numberFrom?_toDigits hbase hle]

/-- Every character of a numeral is a digit. -/
theorem digitValue?_ne_none (h : numberFrom? base n cs = some m) {c : Char} (hc : c ∈ cs) :
    digitValue? c ≠ none := by
  induction cs generalizing n with
  | nil => cases hc
  | cons first cs ih =>
    rw [numberFrom?] at h
    cases hv : digitValue? first with
    | none => simp [hv] at h
    | some value =>
      rcases List.mem_cons.1 hc with rfl | hc
      · simp [hv]
      · rw [hv] at h
        by_cases hlt : value < base
        · exact ih (by simpa [hlt] using h) hc
        · simp [hlt] at h

end Numbers

/-! ## Digests -/

section Digests
variable (d : Digest)

theorem numberFrom?_hexDigest : numberFrom? 16 0 (hexDigest d).toList = some d.toNat := by
  rw [hexDigest, String.toList_ofList, numberFrom?_append, numberFrom?_replicate (by decide),
    Option.bind_some, numberFrom?_toDigits (by decide) (by decide)]

theorem le_length_hexDigest : hexWidth ≤ (hexDigest d).length := by
  rw [hexDigest, String.length_ofList, List.length_append, List.length_replicate]
  omega

theorem number?_hexDigest : number? 16 (hexDigest d).toList = some d.toNat := by
  have hlength := le_length_hexDigest d
  rw [number?, if_neg, numberFrom?_hexDigest]
  intro hnil
  rw [← String.length_toList, hnil] at hlength
  exact absurd hlength (by decide)

/-- A printed digest has digits only. -/
theorem notMem_hexDigest {c : Char} (hc : digitValue? c = none) : c ∉ (hexDigest d).toList :=
  fun h => digitValue?_ne_none (numberFrom?_hexDigest d) h hc

end Digests

/-! ## Groups -/

theorem notMem_toDigits {c : Char} (hc : digitValue? c = none) (n : Nat) : c ∉ Nat.toDigits 10 n :=
  fun h => digitValue?_ne_none (numberFrom?_toDigits (by decide) (by decide) n) h hc

theorem filter_grouped (n : Nat) : (grouped n).toList.filter (· != ',') = Nat.toDigits 10 n := by
  have hfilter := filter_groupDigits (Nat.toDigits 10 n).reverse fun d hd hcomma =>
    notMem_toDigits rfl n (hcomma ▸ List.mem_reverse.1 hd)
  rw [grouped, String.toList_ofList, List.filter_reverse, hfilter, List.reverse_reverse]

theorem notMem_grouped {c : Char} (hcomma : c ≠ ',') (hdigit : digitValue? c = none) (n : Nat) :
    c ∉ (grouped n).toList := by
  intro h
  have hmem : c ∈ (grouped n).toList.filter (· != ',') :=
    List.mem_filter.2 ⟨h, by simpa using hcomma⟩
  rw [filter_grouped] at hmem
  exact notMem_toDigits hdigit n hmem

end DirDigest
