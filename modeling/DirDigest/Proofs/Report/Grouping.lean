import DirDigest.Proofs.Report.Numeral
import Mathlib.Data.List.Basic

/-! # Numbers in groups

* `InThrees`: groups of three, but for the first one, which may be shorter.
* `inThrees_groupDigits`: digits are set in such groups.
* `InThrees.unique`: the groups are told from what they hold.
* `IsGrouped`, `grouped_groups`: a number in groups is its decimal numeral with commas between
  groups, in one way only.
-/

set_option autoImplicit false

namespace DirDigest

/-! ## Groups of three -/

/-- Whether there is a first group of one to three digits, and three in every further group. -/
def InThrees (groups : List (List Char)) : Prop :=
  ∃ first further, groups = first :: further ∧ 1 ≤ first.length ∧ first.length ≤ 3 ∧
    ∀ group ∈ further, group.length = 3

section Groups
variable {groups others : List (List Char)} {group : List Char}

theorem inThrees_single (hpos : 1 ≤ group.length) (hle : group.length ≤ 3) : InThrees [group] :=
  ⟨group, [], rfl, hpos, hle, by simp⟩

theorem InThrees.concat (h : InThrees groups) (hgroup : group.length = 3) :
    InThrees (groups ++ [group]) := by
  obtain ⟨first, further, rfl, hpos, hle, hthree⟩ := h
  refine ⟨first, further ++ [group], rfl, hpos, hle, ?_⟩
  simpa [or_imp, forall_and] using ⟨hthree, hgroup⟩

theorem InThrees.nil_notMem (h : InThrees groups) : [] ∉ groups := by
  obtain ⟨first, further, rfl, hpos, -, hthree⟩ := h
  intro hmem
  rcases List.mem_cons.1 hmem with rfl | hmem
  · simp at hpos
  · simpa using hthree [] hmem

/-- The number of digits tells how long each group is. -/
theorem InThrees.lengths (h : InThrees groups) : ∃ first count,
    groups.map List.length = first :: List.replicate count 3 ∧ 1 ≤ first ∧ first ≤ 3 ∧
      groups.flatten.length = first + 3 * count := by
  obtain ⟨first, further, rfl, hpos, hle, hthree⟩ := h
  have hlengths : further.map List.length = List.replicate further.length 3 := by
    rw [List.eq_replicate_iff]
    simpa using hthree
  refine ⟨first.length, further.length, ?_, hpos, hle, ?_⟩
  · rw [List.map_cons, hlengths]
  · rw [List.flatten_cons, List.length_append, List.length_flatten, hlengths]
    simp
    omega

theorem InThrees.unique (h : InThrees groups) (h' : InThrees others)
    (hdigits : groups.flatten = others.flatten) : groups = others := by
  obtain ⟨first, count, hlengths, hpos, hle, htotal⟩ := h.lengths
  obtain ⟨first', count', hlengths', hpos', hle', htotal'⟩ := h'.lengths
  rw [hdigits, htotal'] at htotal
  obtain rfl : count = count' := by omega
  obtain rfl : first = first' := by omega
  exact List.eq_iff_flatten_eq.2 ⟨hdigits, hlengths.trans hlengths'.symm⟩

end Groups

/-! ## Digits in groups -/

theorem splitOn_reverse_of_notMem {sep : Char} {cs : List Char} (h : sep ∉ cs) :
    cs.reverse.splitOn sep = [cs.reverse] :=
  List.splitOn_eq_singleton fun hmem => h (List.mem_reverse.1 hmem)

theorem inThrees_groupDigits {ds : List Char} (hne : ds ≠ []) (h : ',' ∉ ds) :
    InThrees ((groupDigits ds).reverse.splitOn ',') := by
  fun_induction groupDigits ds with
  | case1 a b c d rest ih =>
    -- a group is complete, and the digits before it have a comma behind them
    have hgroup : ',' ∉ [a, b, c] := fun hmem => h (List.mem_append_left (d :: rest) hmem)
    have hrest : ',' ∉ d :: rest := fun hmem => h (List.mem_append_right [a, b, c] hmem)
    have hreverse : (a :: b :: c :: ',' :: groupDigits (d :: rest)).reverse =
        (groupDigits (d :: rest)).reverse ++ ',' :: [a, b, c].reverse := by simp
    rw [hreverse, List.splitOn_append_cons_self, splitOn_reverse_of_notMem hgroup]
    exact (ih (List.cons_ne_nil d rest) hrest).concat rfl
  | case2 short hshort =>
    have hpos : 1 ≤ short.length := List.length_pos_iff.2 hne
    have hle : short.length ≤ 3 := by
      rcases short with _ | ⟨a, _ | ⟨b, _ | ⟨c, _ | ⟨d, rest⟩⟩⟩⟩
      · simp
      · simp
      · simp
      · simp
      · exact absurd rfl (hshort a b c d rest)
    rw [splitOn_reverse_of_notMem h]
    exact inThrees_single (by simpa using hpos) (by simpa using hle)

theorem flatten_splitOn (sep : Char) (cs : List Char) :
    (cs.splitOn sep).flatten = cs.filter (· != sep) := by
  induction cs with
  | nil => rfl
  | cons c cs ih =>
    obtain ⟨first, further, hsplit⟩ := List.exists_cons_of_ne_nil (List.splitOn_ne_nil sep cs)
    rw [List.splitOn_cons_eq_if_modifyHead, List.filter_cons, ← ih, hsplit]
    by_cases hc : c = sep <;> simp [hc]

/-- Whether a text writes a number in groups: it is the decimal numeral with commas in it, and what
stands between the commas is in groups of three. -/
structure IsGrouped (n : Nat) (text : String) : Prop where
  digits : text.toList.filter (· != ',') = (toString n).toList
  groups : InThrees (text.toList.splitOn ',')

section Numbers
variable {n : Nat} {text other : String}

theorem isGrouped_grouped (n : Nat) : IsGrouped n (grouped n) where
  digits := by rw [filter_grouped, Nat.toString_eq_ofList_toDigits, String.toList_ofList]
  groups := by
    rw [grouped, String.toList_ofList]
    have hne : (Nat.toDigits 10 n).reverse ≠ [] := by simp [Nat.toDigits_ne_nil]
    exact inThrees_groupDigits hne fun h => notMem_toDigits rfl n (List.mem_reverse.1 h)

theorem IsGrouped.unique (h : IsGrouped n text) (h' : IsGrouped n other) : text = other := by
  have hdigits : (text.toList.splitOn ',').flatten = (other.toList.splitOn ',').flatten := by
    rw [flatten_splitOn, flatten_splitOn, h.digits, h'.digits]
  have hgroups := congrArg [','].intercalate (h.groups.unique h'.groups hdigits)
  rw [List.intercalate_splitOn, List.intercalate_splitOn] at hgroups
  exact String.toList_inj.1 hgroups

theorem isGrouped_iff : IsGrouped n text ↔ text = grouped n := by
  constructor
  · intro h
    exact h.unique (isGrouped_grouped n)
  · rintro rfl
    exact isGrouped_grouped n

theorem IsGrouped.not_leading (h : IsGrouped n text) : text.toList.head? ≠ some ',' := by
  intro hhead
  obtain ⟨rest, htext⟩ := List.head?_eq_some_iff.1 hhead
  refine h.groups.nil_notMem ?_
  rw [htext, List.splitOn_cons_eq_if_modifyHead]
  simp

theorem IsGrouped.not_trailing (h : IsGrouped n text) : text.toList.getLast? ≠ some ',' := by
  intro hlast
  obtain ⟨front, htext⟩ := List.getLast?_eq_some_iff.1 hlast
  refine h.groups.nil_notMem ?_
  rw [htext, List.splitOn_append_cons_self]
  simp

theorem IsGrouped.not_doubled (h : IsGrouped n text) : ¬[',', ','] <:+: text.toList := by
  rintro ⟨front, rest, htext⟩
  refine h.groups.nil_notMem ?_
  have hsplit : front ++ ',' :: [] ++ ',' :: rest = text.toList := by simpa using htext
  rw [← hsplit, List.splitOn_append_cons_self, List.splitOn_append_cons_self]
  simp

theorem grouped_injective : Function.Injective grouped := by
  intro m n h
  have hdigits : Nat.toDigits 10 m = Nat.toDigits 10 n := by
    rw [← filter_grouped, h, filter_grouped]
  have hm : number? 10 (Nat.toDigits 10 m) = some m := number?_toDigits (by decide) (by decide) m
  have hn : number? 10 (Nat.toDigits 10 n) = some n := number?_toDigits (by decide) (by decide) n
  rw [hdigits, hn] at hm
  exact (Option.some.inj hm).symm

/-- A number is written in groups in exactly one way, without a comma at an end or beside another
one, and different numbers are written differently. -/
theorem grouped_groups :
    (∀ n text, IsGrouped n text ↔ text = grouped n) ∧
    (∀ n, (grouped n).toList.head? ≠ some ',' ∧ (grouped n).toList.getLast? ≠ some ',' ∧
      ¬[',', ','] <:+: (grouped n).toList) ∧
    Function.Injective grouped := by
  refine ⟨fun n text => isGrouped_iff, fun n => ?_, grouped_injective⟩
  have hgrouped := isGrouped_grouped n
  exact ⟨hgrouped.not_leading, hgrouped.not_trailing, hgrouped.not_doubled⟩

example : grouped 1234567 = "1,234,567" := by decide

end Numbers

end DirDigest
