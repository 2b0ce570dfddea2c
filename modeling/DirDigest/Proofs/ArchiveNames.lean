import DirDigest.Proofs.IgnoredPaths
import Mathlib.Data.List.Forall2

/-! # Which names are names of archives

A path is that of an archive by the last part of it that leads somewhere, and by what follows the
last dot there.

* `HasLastPart`, `hasLastPart_iff`: the last part of a path, in bytes and in pieces.
* `fileName?_eq_some`, `extension?_eq_some`: the name of a path and the extension of a name.
* `sameLetters_iff`, `utf8_recased`: texts up to the case of ASCII letters, and their bytes.
* `FitsExtension`: a configured extension is the extension of a name.
* `archiveNames`: the grammar of archive names, and what does not matter to it.
-/

set_option autoImplicit false

namespace DirDigest

/-! ## Pieces -/

theorem intercalate_cons (sep : UInt8) (piece : Bytes) (back : List Bytes) :
    [sep].intercalate (piece :: back) = piece ++ back.flatMap (sep :: ·) := by
  induction back generalizing piece with
  | nil => simp
  | cons next back ih =>
    rw [List.intercalate_cons_of_ne_nil (List.cons_ne_nil next back), ih next, List.flatMap_cons,
      List.append_assoc]
    rfl

theorem bytes_of_pieces {sep : UInt8} {bytes piece : Bytes} {front back : List Bytes}
    (h : bytes.splitOn sep = front ++ piece :: back) :
    bytes = front.flatMap (· ++ [sep]) ++ piece ++ back.flatMap (sep :: ·) := by
  have hjoin : [sep].intercalate (bytes.splitOn sep) = bytes := List.intercalate_splitOn sep
  rw [← hjoin, h]
  clear h hjoin
  induction front with
  | nil => rw [List.nil_append, intercalate_cons, List.flatMap_nil, List.nil_append]
  | cons first front ih =>
    have hne : front ++ piece :: back ≠ [] :=
      List.append_ne_nil_of_right_ne_nil _ (List.cons_ne_nil _ _)
    rw [List.cons_append, List.intercalate_cons_of_ne_nil hne, ih, List.flatMap_cons]
    simp only [List.append_assoc]

/-! ## The last part of a path -/

/-- What may stand behind the last part of a path: slashes, each with at most a dot behind it. -/
inductive Trailing : Bytes → Prop
  | nothing : Trailing []
  | separator {tail : Bytes} (h : Trailing tail) : Trailing (slash :: tail)
  | here {tail : Bytes} (h : Trailing tail) : Trailing (slash :: dot :: tail)

/-- Whether a path has a last part: it is not empty and no dot, directories may stand before it, and
nothing that leads anywhere stands behind it. -/
structure HasLastPart (p : Path) (part : Bytes) : Prop where
  bytes : ∃ front tail, p.bytes = front ++ part ++ tail ∧
    (front = [] ∨ front.getLast? = some slash) ∧ Trailing tail
  notEmpty : part ≠ []
  notHere : part ≠ [dot]
  noSlash : slash ∉ part

/-- The last part of a path. -/
def Path.lastPart? (p : Path) : Option Bytes :=
  (p.bytes.splitOn slash).reverse.find? fun piece => (Component.ofPiece? piece).isSome

theorem lastPart?_eq_some {p : Path} {part : Bytes} : p.lastPart? = some part ↔
    Component.ofPiece? part ≠ none ∧ ∃ front back,
      p.bytes.splitOn slash = front ++ part :: back ∧
        ∀ piece ∈ back, Component.ofPiece? piece = none := by
  rw [Path.lastPart?, List.find?_eq_some_iff_append, Option.isSome_iff_ne_none]
  refine and_congr_right fun _ => ?_
  constructor
  · rintro ⟨back, front, hsplit, hback⟩
    refine ⟨front.reverse, back.reverse, ?_, fun piece hpiece => ?_⟩
    · rw [← List.reverse_reverse (p.bytes.splitOn slash), hsplit]
      simp
    · simpa using hback piece (List.mem_reverse.1 hpiece)
  · rintro ⟨front, back, hsplit, hback⟩
    refine ⟨back.reverse, front.reverse, ?_, fun piece hpiece => ?_⟩
    · rw [hsplit]
      simp
    · rw [hback piece (List.mem_reverse.1 hpiece)]
      rfl

theorem trailing_of_pieces {back : List Bytes}
    (h : ∀ piece ∈ back, Component.ofPiece? piece = none) :
    Trailing (back.flatMap (slash :: ·)) := by
  induction back with
  | nil => exact .nothing
  | cons piece back ih =>
    obtain ⟨hpiece, hback⟩ := List.forall_mem_cons.1 h
    rcases ofPiece?_eq_none.1 hpiece with rfl | rfl
    · exact .separator (ih hback)
    · exact .here (ih hback)

theorem pieces_trailing {part tail : Bytes} (hpart : slash ∉ part) (h : Trailing tail) :
    ∃ back, (part ++ tail).splitOn slash = part :: back ∧
      ∀ piece ∈ back, Component.ofPiece? piece = none := by
  -- what stands before the next slash takes the place of the part
  induction h generalizing part with
  | nothing =>
    rw [List.append_nil]
    exact ⟨[], List.splitOn_eq_singleton hpart, nofun⟩
  | separator _ ih =>
    obtain ⟨back, hsplit, hback⟩ := ih List.not_mem_nil
    rw [List.nil_append] at hsplit
    refine ⟨[] :: back, ?_, List.forall_mem_cons.2 ⟨rfl, hback⟩⟩
    rw [List.splitOn_append_cons_self, List.splitOn_eq_singleton hpart, hsplit]
    rfl
  | here _ ih =>
    obtain ⟨back, hsplit, hback⟩ := @ih [dot] (by decide)
    rw [List.singleton_append] at hsplit
    refine ⟨[dot] :: back, ?_, List.forall_mem_cons.2 ⟨rfl, hback⟩⟩
    rw [List.splitOn_append_cons_self, List.splitOn_eq_singleton hpart, hsplit]
    rfl

theorem hasLastPart_iff {p : Path} {part : Bytes} :
    HasLastPart p part ↔ p.lastPart? = some part := by
  rw [lastPart?_eq_some]
  constructor
  · rintro ⟨⟨front, tail, hbytes, hfront, htail⟩, hempty, hhere, hslash⟩
    refine ⟨fun hnone => (ofPiece?_eq_none.1 hnone).elim hempty hhere, ?_⟩
    obtain ⟨back, hsplit, hback⟩ := pieces_trailing hslash htail
    rcases hfront with rfl | hfront
    · exact ⟨[], back, by rw [hbytes, List.nil_append, hsplit]; rfl, hback⟩
    · obtain ⟨before, rfl⟩ := List.getLast?_eq_some_iff.1 hfront
      refine ⟨before.splitOn slash, back, ?_, hback⟩
      rw [hbytes, List.append_assoc, List.append_assoc, List.singleton_append,
        List.splitOn_append_cons_self, hsplit]
  · rintro ⟨hpart, front, back, hsplit, hback⟩
    obtain ⟨hempty, hhere⟩ := not_or.1 (mt ofPiece?_eq_none.2 hpart)
    have hmem : part ∈ p.bytes.splitOn slash := by
      rw [hsplit]
      exact List.mem_append_right _ List.mem_cons_self
    refine ⟨⟨_, _, bytes_of_pieces hsplit, ?_, trailing_of_pieces hback⟩, hempty, hhere,
      sep_notMem_splitOn part hmem⟩
    rcases List.eq_nil_or_concat' front with rfl | ⟨before, last, rfl⟩
    · exact .inl rfl
    · refine .inr ?_
      simp

theorem HasLastPart.unique {p : Path} {part other : Bytes} (h : HasLastPart p part)
    (hother : HasLastPart p other) : part = other :=
  Option.some.inj ((hasLastPart_iff.1 h).symm.trans (hasLastPart_iff.1 hother))

theorem getLast?_components {p : Path} {n : Name} :
    p.components.getLast? = some (.name n) ↔
      ((p.bytes.splitOn slash).filterMap Component.ofPiece?).getLast? = some (.name n) := by
  rw [Path.components, List.getLast?_append]
  cases ((p.bytes.splitOn slash).filterMap Component.ofPiece?).getLast? with
  | some c => rfl
  | none =>
    -- what a path starts with is no name
    by_cases habsolute : p.isAbsolute = true
    · simp [habsolute]
    · by_cases hhere : (p.bytes.splitOn slash).head? = some [dot]
      · simp [habsolute, hhere]
      · simp [habsolute, hhere]

/-- The name of a path is its last part, unless that is `..`. -/
theorem fileName?_eq_some {p : Path} {n : Name} :
    p.fileName? = some n ↔ HasLastPart p n ∧ n ≠ [dot, dot] := by
  have hlast : p.fileName? = some n ↔ p.components.getLast? = some (.name n) := by
    unfold Path.fileName?
    split
    · rename_i m hm
      rw [hm]
      simp
    · rename_i hother
      exact iff_of_false nofun fun hn => hother n hn
  rw [hlast, getLast?_components, List.getLast?_filterMap, List.findSome?_eq_some_iff,
    hasLastPart_iff, Path.lastPart?, List.find?_eq_some_iff_append]
  constructor
  · rintro ⟨back, piece, front, hsplit, hpiece, hback⟩
    obtain ⟨rfl, hsome, hup⟩ := ofPiece?_eq_name.1 hpiece
    refine ⟨⟨Option.isSome_iff_ne_none.2 hsome, back, front, hsplit, fun x hx => ?_⟩, hup⟩
    rw [hback x hx]
    rfl
  · rintro ⟨⟨hsome, back, front, hsplit, hback⟩, hup⟩
    refine ⟨back, n, front, hsplit, ?_, fun x hx => by simpa using hback x hx⟩
    exact ofPiece?_eq_name.2 ⟨rfl, Option.isSome_iff_ne_none.1 hsome, hup⟩

/-! ## Extensions -/

theorem exists_last_dot {n : Name} (h : dot ∈ n) :
    ∃ stem ext, n = stem ++ dot :: ext ∧ dot ∉ ext := by
  obtain ⟨ext, stem, hsplit, hext⟩ := List.eq_append_cons_of_mem (List.mem_reverse.2 h)
  refine ⟨stem.reverse, ext.reverse, ?_, fun hdot => hext (List.mem_reverse.1 hdot)⟩
  rw [← List.reverse_reverse n, hsplit]
  simp

theorem pieces_stem (stem : Bytes) {ext : Bytes} (h : dot ∉ ext) :
    (stem ++ dot :: ext).reverse.splitOn dot = ext.reverse :: stem.reverse.splitOn dot := by
  have hext : dot ∉ ext.reverse := fun hdot => h (List.mem_reverse.1 hdot)
  rw [List.reverse_append, List.reverse_cons, List.append_assoc, List.singleton_append,
    List.splitOn_append_cons_self, List.splitOn_eq_singleton hext]
  rfl

theorem stem_unique {stem stem' ext ext' : Bytes} (hext : dot ∉ ext) (hext' : dot ∉ ext')
    (h : stem ++ dot :: ext = stem' ++ dot :: ext') : stem = stem' ∧ ext = ext' := by
  have hpieces := pieces_stem stem hext
  rw [h, pieces_stem stem' hext'] at hpieces
  obtain rfl := List.reverse_inj.1 (List.cons.inj hpieces).1
  exact ⟨List.append_cancel_right h, rfl⟩

theorem extension?_stem {stem ext : Bytes} (h : dot ∉ ext) :
    Name.extension? (stem ++ dot :: ext) = if stem = [] then none else some ext := by
  have hstem : (stem.reverse.splitOn dot = [] ∨ stem.reverse.splitOn dot = [[]]) ↔ stem = [] := by
    rw [or_iff_right (List.splitOn_ne_nil dot stem.reverse)]
    constructor
    · intro hone
      simpa using @bytes_of_pieces dot stem.reverse [] [] [] hone
    · rintro rfl
      rfl
  unfold Name.extension?
  rw [pieces_stem stem h]
  simp only [hstem, List.reverse_reverse]

/-- The extension of a name is what follows its last dot, unless that dot leads. -/
theorem extension?_eq_some {n : Name} {ext : Bytes} : Name.extension? n = some ext ↔
    ∃ stem, n = stem ++ dot :: ext ∧ stem ≠ [] ∧ dot ∉ ext := by
  constructor
  · intro h
    by_cases hdot : dot ∈ n
    · obtain ⟨stem, found, rfl, hfound⟩ := exists_last_dot hdot
      rw [extension?_stem hfound] at h
      split at h
      · cases h
      · rename_i hstem
        obtain rfl := Option.some.inj h
        exact ⟨stem, rfl, hstem, hfound⟩
    · have hrev : dot ∉ n.reverse := fun hmem => hdot (List.mem_reverse.1 hmem)
      unfold Name.extension? at h
      rw [List.splitOn_eq_singleton hrev] at h
      cases h
  · rintro ⟨stem, rfl, hstem, hext⟩
    rw [extension?_stem hext, if_neg hstem]

/-! ## Letters -/

/-- Whether two numbers are those of one character, up to the case of ASCII letters. -/
def SameCode (m n : Nat) : Prop :=
  m = n ∨ (0x41 ≤ m ∧ m ≤ 0x5A ∧ n = m + 0x20) ∨ (0x41 ≤ n ∧ n ≤ 0x5A ∧ m = n + 0x20)

/-- Whether two characters are the same, up to the case of ASCII letters. -/
def SameLetter (c d : Char) : Prop := SameCode c.toNat d.toNat

/-- Whether two bytes are the same, up to the case of ASCII letters. -/
def SameByte (b d : UInt8) : Prop := SameCode b.toNat d.toNat

instance (m n : Nat) : Decidable (SameCode m n) :=
  inferInstanceAs (Decidable (m = n ∨ (0x41 ≤ m ∧ m ≤ 0x5A ∧ n = m + 0x20) ∨
    (0x41 ≤ n ∧ n ≤ 0x5A ∧ m = n + 0x20)))

instance : DecidableRel SameLetter := fun c d =>
  inferInstanceAs (Decidable (SameCode c.toNat d.toNat))

instance : DecidableRel SameByte := fun b d =>
  inferInstanceAs (Decidable (SameCode b.toNat d.toNat))

theorem sameCode_self (n : Nat) : SameCode n n := .inl rfl

theorem SameCode.symm {m n : Nat} (h : SameCode m n) : SameCode n m := by
  unfold SameCode at *
  omega

/-- Only letters of ASCII have two cases. -/
theorem SameCode.eq {m n : Nat} (h : SameCode m n) (hm : m < 0x41 ∨ 0x80 ≤ m) : m = n := by
  unfold SameCode at h
  omega

theorem toNat_toLower (c : Char) : c.toLower.toNat =
    if 0x41 ≤ c.toNat ∧ c.toNat ≤ 0x5A then c.toNat + 0x20 else c.toNat := by
  have hcapital : (c.val ≥ 'A'.val ∧ c.val ≤ 'Z'.val) ↔ (0x41 ≤ c.toNat ∧ c.toNat ≤ 0x5A) := by
    rw [ge_iff_le, UInt32.le_iff_toNat_le, UInt32.le_iff_toNat_le]
    rfl
  unfold Char.toLower
  by_cases h : c.val ≥ 'A'.val ∧ c.val ≤ 'Z'.val
  · have hc := hcapital.1 h
    rw [dif_pos h, if_pos hc]
    have hsum : (c.val + ('a'.val - 'A'.val)).toNat = (c.toNat + 0x20) % 2 ^ 32 := UInt32.toNat_add ..
    exact hsum.trans (Nat.mod_eq_of_lt (by omega))
  · rw [dif_neg h, if_neg (mt hcapital.2 h)]

theorem sameLetter_iff {c d : Char} : SameLetter c d ↔ c.toLower = d.toLower := by
  rw [← Char.toNat_inj, toNat_toLower, toNat_toLower]
  unfold SameLetter SameCode
  split
  · split
    · omega
    · omega
  · split
    · omega
    · omega

theorem recased_iff {cs ds : List Char} :
    cs.Forall₂ SameLetter ds ↔ cs.map Char.toLower = ds.map Char.toLower := by
  rw [← List.forall₂_eq_eq_eq, List.forall₂_map_left_iff, List.forall₂_map_right_iff]
  exact ⟨List.Forall₂.imp fun _ _ => sameLetter_iff.1, List.Forall₂.imp fun _ _ => sameLetter_iff.2⟩

theorem sameLetters_iff {cs ds : List Char} :
    sameLetters cs ds = true ↔ cs.Forall₂ SameLetter ds := by
  rw [sameLetters, beq_iff_eq, recased_iff]

/-! ## Bytes of letters -/

theorem utf8EncodeChar_high {c : Char} (h : 0x80 ≤ c.toNat) :
    ∀ b ∈ String.utf8EncodeChar c, 0x80 ≤ b.toNat := by
  have hhigh : ¬c.val.toNat ≤ 127 := Nat.not_le_of_lt h
  unfold String.utf8EncodeChar
  simp only [if_neg hhigh]
  split
  · simp
    omega
  · split
    · simp
      omega
    · simp
      omega

theorem toNat_ofNat_ascii : ∀ n < 0x80, (Char.ofNat n).toNat = n := by decide

theorem eq_of_high {bytes recased : Bytes} (h : recased.Forall₂ SameByte bytes)
    (hhigh : ∀ b ∈ bytes, 0x80 ≤ b.toNat) : recased = bytes := by
  induction h with
  | nil => rfl
  | cons hbyte _ ih =>
    obtain ⟨hb, hrest⟩ := List.forall_mem_cons.1 hhigh
    rw [UInt8.toNat_inj.1 (hbyte.symm.eq (.inr hb)), ih hrest]

/-- One character: its bytes change case where it does. -/
theorem utf8EncodeChar_recased {c : Char} {recased : Bytes}
    (h : recased.Forall₂ SameByte (String.utf8EncodeChar c)) :
    ∃ d, recased = String.utf8EncodeChar d ∧ SameLetter d c := by
  by_cases hc : c.toNat < 0x80
  · rw [← Char.ofNat_toNat c, utf8EncodeChar_ascii _ hc] at h
    obtain ⟨b, rest, hbyte, hrest, rfl⟩ := List.forall₂_cons_right_iff.1 h
    obtain rfl := List.forall₂_nil_right_iff.1 hrest
    have hcode : SameCode b.toNat c.toNat := by
      rwa [SameByte, UInt8.toNat_ofNat_of_lt' (Nat.lt_trans hc (by decide))] at hbyte
    have hb : b.toNat < 0x80 := by
      unfold SameCode at hcode
      omega
    refine ⟨Char.ofNat b.toNat, ?_, ?_⟩
    · rw [utf8EncodeChar_ascii _ hb, UInt8.ofNat_toNat]
    · rwa [SameLetter, toNat_ofNat_ascii _ hb]
  · exact ⟨c, eq_of_high h (utf8EncodeChar_high (Nat.le_of_not_lt hc)), sameCode_self _⟩

/-- Bytes of a text in letters of another case are a text in letters of another case. -/
theorem utf8_recased {text : String} {recased : Bytes} (h : recased.Forall₂ SameByte (utf8 text)) :
    ∃ other : String, recased = utf8 other ∧ other.toList.Forall₂ SameLetter text.toList := by
  have hchars : ∀ (cs : List Char) (bytes : Bytes),
      bytes.Forall₂ SameByte (cs.flatMap String.utf8EncodeChar) →
      ∃ ds : List Char, bytes = ds.flatMap String.utf8EncodeChar ∧ ds.Forall₂ SameLetter cs := by
    intro cs
    induction cs with
    | nil =>
      intro bytes hbytes
      exact ⟨[], List.forall₂_nil_right_iff.1 hbytes, .nil⟩
    | cons c cs ih =>
      intro bytes hbytes
      rw [List.flatMap_cons] at hbytes
      obtain ⟨d, hd, hletter⟩ := utf8EncodeChar_recased (List.forall₂_take_append _ _ _ hbytes)
      obtain ⟨ds, hds, hletters⟩ := ih _ (List.forall₂_drop_append _ _ _ hbytes)
      refine ⟨d :: ds, ?_, .cons hletter hletters⟩
      rw [List.flatMap_cons, ← hd, ← hds, List.take_append_drop]
  rw [utf8_toList] at h
  obtain ⟨ds, hds, hletters⟩ := hchars text.toList recased h
  refine ⟨String.ofList ds, ?_, ?_⟩
  · rw [utf8_toList, String.toList_ofList, hds]
  · rwa [String.toList_ofList]

theorem notMem_recased {α : Type} {R : α → α → Prop} {x : α} (hx : ∀ a, R x a → a = x)
    {l recased : List α} (h : recased.Forall₂ R l) (hl : x ∉ l) : x ∉ recased := by
  induction h with
  | nil => exact hl
  | cons hfirst _ ih =>
    obtain ⟨hne, hrest⟩ := List.ne_and_not_mem_of_not_mem_cons hl
    refine List.not_mem_cons_of_ne_of_not_mem ?_ (ih hrest)
    rintro rfl
    exact hne (hx _ hfirst).symm

theorem dot_notMem_recased {ext recased : Bytes} (h : recased.Forall₂ SameByte ext)
    (hext : dot ∉ ext) : dot ∉ recased :=
  notMem_recased (fun _ hb => (UInt8.toNat_inj.1 (hb.eq (.inl (by decide)))).symm) h hext

/-! ## Configured extensions -/

/-- Whether `rest` is a configured extension without its leading dots. -/
def Undotted (known : String) (rest : List Char) : Prop :=
  rest.head? ≠ some '.' ∧ ∃ dots, known.toList = List.replicate dots '.' ++ rest

/-- Whether a configured extension without its leading dots is the extension of a name, up to the
case of ASCII letters. -/
def FitsExtension (known ext : String) : Prop :=
  ∃ rest, Undotted known rest ∧ rest.Forall₂ SameLetter ext.toList

/-- Whether a configured extension has a dot after its leading ones. -/
def HasInnerDot (known : String) : Prop := ∃ rest, Undotted known rest ∧ '.' ∈ rest

/-- Whether a configured extension is another one in letters of either case, with any number of dots
put before it. -/
def Respelled (known known' : String) : Prop :=
  ∃ dots body, known.toList.Forall₂ SameLetter body ∧ known'.toList = List.replicate dots '.' ++ body

theorem dropWhile_dots (dots : Nat) (rest : List Char) :
    (List.replicate dots '.' ++ rest).dropWhile (· == '.') = rest.dropWhile (· == '.') :=
  List.dropWhile_append_of_pos fun c hc => by
    rw [List.eq_of_mem_replicate hc]
    rfl

theorem undotted_iff {known : String} {rest : List Char} :
    Undotted known rest ↔ known.toList.dropWhile (· == '.') = rest := by
  constructor
  · rintro ⟨hhead, dots, hknown⟩
    rw [hknown, dropWhile_dots, dropWhile_eq_self]
    intro c hc
    rw [beq_eq_false_iff_ne]
    rintro rfl
    exact hhead hc
  · rintro rfl
    refine ⟨fun hhead => ?_, (known.toList.takeWhile (· == '.')).length, ?_⟩
    · have hstop := List.head?_dropWhile_not (· == '.') known.toList
      rw [hhead] at hstop
      exact absurd hstop (by decide)
    · have hdots : known.toList.takeWhile (· == '.') = List.replicate _ '.' :=
        List.eq_replicate_of_mem fun c hc => by simpa using List.mem_takeWhile_imp hc
      rw [← hdots, List.takeWhile_append_dropWhile]

theorem extensionMatches_iff {known ext : String} :
    extensionMatches ext known = true ↔ FitsExtension known ext := by
  rw [extensionMatches, sameLetters_iff]
  simp only [FitsExtension, undotted_iff, exists_eq_left']

theorem dot_recased {c d : Char} (h : SameLetter c d) : (c == '.') = true ↔ (d == '.') = true := by
  rw [beq_iff_eq, beq_iff_eq]
  constructor
  · rintro rfl
    exact (Char.toNat_inj.1 (h.eq (.inl (by decide)))).symm
  · rintro rfl
    exact (Char.toNat_inj.1 (h.symm.eq (.inl (by decide)))).symm

theorem dropWhile_recased {cs ds : List Char} (h : cs.Forall₂ SameLetter ds) :
    (cs.dropWhile (· == '.')).Forall₂ SameLetter (ds.dropWhile (· == '.')) := by
  induction h with
  | nil => exact .nil
  | cons hletter hrest ih =>
    rw [List.dropWhile_cons, List.dropWhile_cons, Bool.eq_iff_iff.2 (dot_recased hletter)]
    split
    · exact ih
    · exact .cons hletter hrest

theorem fits_respelled {known known' ext : String} (h : Respelled known known') :
    FitsExtension known ext ↔ FitsExtension known' ext := by
  obtain ⟨dots, body, hbody, hknown'⟩ := h
  have hsame := recased_iff.1 (dropWhile_recased hbody)
  simp only [FitsExtension, undotted_iff, exists_eq_left', hknown', dropWhile_dots, recased_iff, hsame]

theorem exists_fits_respelled {known known' : List String} (h : known.Forall₂ Respelled known')
    (ext : String) :
    (∃ k ∈ known, FitsExtension k ext) ↔ ∃ k ∈ known', FitsExtension k ext := by
  induction h with
  | nil => rfl
  | cons hfirst _ ih =>
    rw [List.exists_mem_cons_iff, List.exists_mem_cons_iff, fits_respelled hfirst, ih]

theorem not_fits_innerDot {known ext : String} (h : HasInnerDot known) (hext : dot ∉ utf8 ext) :
    ¬FitsExtension known ext := by
  rintro ⟨rest, hrest, hletters⟩
  obtain ⟨other, hother, hdot⟩ := h
  obtain rfl := (undotted_iff.1 hrest).symm.trans (undotted_iff.1 hother)
  have hchars : '.' ∉ ext.toList := fun hmem => hext (mem_utf8 hmem (by decide))
  exact notMem_recased (fun c hc => beq_iff_eq.1 ((dot_recased hc).1 rfl)) hletters hchars hdot

/-! ## Archive names -/

/-- Whether a path is that of an archive: its last part is a name with something before its last dot,
and after it nothing but one of the extensions. -/
def NamesArchive (extensions : List String) (p : Path) : Prop :=
  ∃ stem ext, HasLastPart p (stem ++ dot :: utf8 ext) ∧ stem ++ dot :: utf8 ext ≠ [dot, dot] ∧
    stem ≠ [] ∧ dot ∉ utf8 ext ∧ ∃ known ∈ extensions, FitsExtension known ext

section Names
variable {c c' : Config} {p q : Path}

theorem isArchiveName_iff : c.isArchiveName p = true ↔
    ∃ ext, p.extension? = some (utf8 ext) ∧
      ∃ known ∈ c.archiveExtensions, FitsExtension known ext := by
  have htext : ∀ ext, p.extension?.bind Bytes.text? = some ext ↔ p.extension? = some (utf8 ext) := by
    intro ext
    rw [Option.bind_eq_some_iff]
    constructor
    · rintro ⟨bytes, hbytes, hext⟩
      rw [hbytes, utf8_of_text? hext]
    · intro h
      exact ⟨utf8 ext, h, text?_utf8 ext⟩
  unfold Config.isArchiveName
  simp only [← htext]
  cases p.extension?.bind Bytes.text? with
  | none => simp
  | some ext => simp [extensionMatches_iff]

theorem extension?_path {ext : Bytes} : p.extension? = some ext ↔
    ∃ stem, HasLastPart p (stem ++ dot :: ext) ∧ stem ++ dot :: ext ≠ [dot, dot] ∧ stem ≠ [] ∧
      dot ∉ ext := by
  rw [Path.extension?, Option.bind_eq_some_iff]
  constructor
  · rintro ⟨n, hn, hext⟩
    obtain ⟨stem, rfl, hstem, hdot⟩ := extension?_eq_some.1 hext
    obtain ⟨hpart, hup⟩ := fileName?_eq_some.1 hn
    exact ⟨stem, hpart, hup, hstem, hdot⟩
  · rintro ⟨stem, hpart, hup, hstem, hdot⟩
    exact ⟨_, fileName?_eq_some.2 ⟨hpart, hup⟩, extension?_eq_some.2 ⟨stem, rfl, hstem, hdot⟩⟩

theorem isArchiveName_grammar : c.isArchiveName p = true ↔ NamesArchive c.archiveExtensions p := by
  rw [isArchiveName_iff]
  constructor
  · rintro ⟨ext, hext, hknown⟩
    obtain ⟨stem, hpart, hup, hstem, hdot⟩ := extension?_path.1 hext
    exact ⟨stem, ext, hpart, hup, hstem, hdot, hknown⟩
  · rintro ⟨stem, ext, hpart, hup, hstem, hdot, hknown⟩
    exact ⟨ext, extension?_path.2 ⟨stem, hpart, hup, hstem, hdot⟩, hknown⟩

/-- Of a path, only its last part counts. -/
theorem isArchiveName_lastPart {part : Bytes} (hp : HasLastPart p part) (hq : HasLastPart q part)
    (h : c.isArchiveName p = true) : c.isArchiveName q = true := by
  obtain ⟨stem, ext, hpart, hrest⟩ := isArchiveName_grammar.1 h
  obtain rfl := hp.unique hpart
  exact isArchiveName_grammar.2 ⟨stem, ext, hq, hrest⟩

theorem isArchiveName_recased {stem ext recased : Bytes} (hdot : dot ∉ ext)
    (hp : HasLastPart p (stem ++ dot :: ext)) (hq : HasLastPart q (stem ++ dot :: recased))
    (hcase : recased.Forall₂ SameByte ext) (h : c.isArchiveName p = true) :
    c.isArchiveName q = true := by
  obtain ⟨found, text, hpart, hup, hstem, htext, known, hknown, rest, hrest, hletters⟩ :=
    isArchiveName_grammar.1 h
  obtain ⟨rfl, rfl⟩ := stem_unique hdot htext (hp.unique hpart)
  have hdot' := dot_notMem_recased hcase hdot
  obtain ⟨other, rfl, hother⟩ := utf8_recased hcase
  refine isArchiveName_grammar.2 ⟨stem, other, hq, fun heq => hup ?_, hstem, hdot', known, hknown,
    rest, hrest, ?_⟩
  · -- an empty extension stays empty
    have hup' : stem ++ dot :: utf8 other = [dot] ++ dot :: [] := heq
    obtain ⟨rfl, hempty⟩ := stem_unique hdot' List.not_mem_nil hup'
    rw [hempty] at hcase
    rw [List.forall₂_nil_left_iff.1 hcase]
    rfl
  · rw [recased_iff] at hletters hother ⊢
    rw [hletters, hother]

/-- Of the extensions, only those count that an extension without dot fits. -/
theorem isArchiveName_of_fits
    (hfits : ∀ ext, dot ∉ utf8 ext → (∃ known ∈ c.archiveExtensions, FitsExtension known ext) →
      ∃ known ∈ c'.archiveExtensions, FitsExtension known ext)
    (h : c.isArchiveName p = true) : c'.isArchiveName p = true := by
  obtain ⟨stem, ext, hpart, hup, hstem, hdot, hknown⟩ := isArchiveName_grammar.1 h
  exact isArchiveName_grammar.2 ⟨stem, ext, hpart, hup, hstem, hdot, hfits ext hdot hknown⟩

theorem isArchiveName_more (h : c.archiveExtensions ⊆ c'.archiveExtensions)
    (hp : c.isArchiveName p = true) : c'.isArchiveName p = true := by
  refine isArchiveName_of_fits (fun ext _ hknown => ?_) hp
  obtain ⟨known, hmem, hfits⟩ := hknown
  exact ⟨known, h hmem, hfits⟩

end Names

/-- The grammar of the names that a configuration takes for archives, and what does not matter to
it. -/
structure ArchiveNameLaws (c : Config) : Prop where
  grammar : ∀ p, c.isArchiveName p = true ↔ NamesArchive c.archiveExtensions p
  /-- The directories before the last part do not matter, and neither does what stands behind it. -/
  directory : ∀ p q part, HasLastPart p part → HasLastPart q part →
    c.isArchiveName p = c.isArchiveName q
  /-- The case of ASCII letters in the extension of the name does not matter, be it a text or not. -/
  nameCase : ∀ p q stem ext recased, dot ∉ ext → HasLastPart p (stem ++ dot :: ext) →
    HasLastPart q (stem ++ dot :: recased) → recased.Forall₂ SameByte ext →
    c.isArchiveName p = c.isArchiveName q
  /-- The case of ASCII letters in configured extensions does not matter, nor do dots put before. -/
  respelled : ∀ c' : Config, c.archiveExtensions.Forall₂ Respelled c'.archiveExtensions →
    ∀ p, c.isArchiveName p = c'.isArchiveName p
  /-- Configured extensions with a dot after their leading ones might as well be left out. -/
  innerDot : ∀ c' : Config, c'.archiveExtensions ⊆ c.archiveExtensions →
    (∀ known ∈ c.archiveExtensions, known ∈ c'.archiveExtensions ∨ HasInnerDot known) →
    ∀ p, c.isArchiveName p = c'.isArchiveName p
  /-- What is an archive stays one with more extensions. -/
  more : ∀ c' : Config, c.archiveExtensions ⊆ c'.archiveExtensions →
    ∀ p, c.isArchiveName p = true → c'.isArchiveName p = true

theorem archiveNames (c : Config) : ArchiveNameLaws c where
  grammar p := isArchiveName_grammar
  directory p q part hp hq :=
    Bool.eq_iff_iff.2 ⟨isArchiveName_lastPart hp hq, isArchiveName_lastPart hq hp⟩
  nameCase p q stem ext recased hdot hp hq hcase := by
    have hback : ext.Forall₂ SameByte recased :=
      List.Forall₂.flip (hcase.imp fun _ _ hbyte => SameCode.symm hbyte)
    have hdot' := dot_notMem_recased hcase hdot
    exact Bool.eq_iff_iff.2
      ⟨isArchiveName_recased hdot hp hq hcase, isArchiveName_recased hdot' hq hp hback⟩
  respelled c' h p := by
    have hfits := exists_fits_respelled h
    exact Bool.eq_iff_iff.2 ⟨isArchiveName_of_fits fun ext _ => (hfits ext).1,
      isArchiveName_of_fits fun ext _ => (hfits ext).2⟩
  innerDot c' hsub hinner p := by
    refine Bool.eq_iff_iff.2 ⟨isArchiveName_of_fits fun ext hext hknown => ?_, isArchiveName_more hsub⟩
    obtain ⟨known, hmem, hfits⟩ := hknown
    have hkept := (hinner known hmem).resolve_right fun h => not_fits_innerDot h hext hfits
    exact ⟨known, hkept, hfits⟩
  more c' h p := isArchiveName_more h

theorem archiveNames_sample :
    ({ archiveExtensions := [".EAR", "tar.gz"] } : Config).isArchiveName "d/app.Ear/." = true ∧
      ({ archiveExtensions := [".EAR", "tar.gz"] } : Config).isArchiveName "app.eAR" = true ∧
      ({ archiveExtensions := ["ear", "tar.gz"] } : Config).isArchiveName "app.eAR" = true ∧
      ({ archiveExtensions := ["ear"] } : Config).isArchiveName "app.eAR" = true ∧
      ({ archiveExtensions := ["zip", "ear"] } : Config).isArchiveName "app.eAR" = true := by
  have hdeep : HasLastPart "d/app.Ear/." (utf8 "app" ++ dot :: utf8 "Ear") :=
    ⟨⟨utf8 "d/", [slash, dot], by decide, .inr (by decide), .here .nothing⟩, by decide, by decide,
      by decide⟩
  have hbare : HasLastPart "app.Ear" (utf8 "app" ++ dot :: utf8 "Ear") :=
    ⟨⟨[], [], by decide, .inl rfl, .nothing⟩, by decide, by decide, by decide⟩
  have hcase : HasLastPart "app.eAR" (utf8 "app" ++ dot :: utf8 "eAR") :=
    ⟨⟨[], [], by decide, .inl rfl, .nothing⟩, by decide, by decide, by decide⟩
  have hfits : FitsExtension ".EAR" "Ear" := ⟨['E', 'A', 'R'], ⟨by decide, 1, by decide⟩, by decide⟩
  have hlaws := archiveNames { archiveExtensions := [".EAR", "tar.gz"] }
  have hfirst := (hlaws.grammar "d/app.Ear/.").2 ⟨utf8 "app", "Ear", hdeep, by decide, by decide,
    by decide, ".EAR", List.mem_cons_self, hfits⟩
  have hsecond := (hlaws.directory _ _ _ hdeep hbare).symm.trans hfirst
  have hthird := (hlaws.nameCase _ _ _ _ (utf8 "eAR") (by decide) hbare hcase (by decide)).symm.trans
    hsecond
  have hrespelled : ["ear", "tar.gz"].Forall₂ Respelled [".EAR", "tar.gz"] :=
    .cons ⟨1, ['E', 'A', 'R'], by decide, by decide⟩
      (.cons ⟨0, "tar.gz".toList, by decide, by decide⟩ .nil)
  have hfourth := ((archiveNames { archiveExtensions := ["ear", "tar.gz"] }).respelled
    { archiveExtensions := [".EAR", "tar.gz"] } hrespelled "app.eAR").trans hthird
  have hinner : HasInnerDot "tar.gz" := ⟨"tar.gz".toList, ⟨by decide, 0, by decide⟩, by decide⟩
  have hfifth := ((archiveNames { archiveExtensions := ["ear", "tar.gz"] }).innerDot
    { archiveExtensions := ["ear"] } (by decide) (by simp [hinner]) "app.eAR").symm.trans hfourth
  exact ⟨hfirst, hthird, hfourth, hfifth, (archiveNames { archiveExtensions := ["ear"] }).more
    { archiveExtensions := ["zip", "ear"] } (by decide) "app.eAR" hfifth⟩

end DirDigest
