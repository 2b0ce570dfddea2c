import DirDigest.Config
import DirDigest.FileTree.Resolve
import DirDigest.Proofs.FileTree.Table
import Mathlib.Data.List.Basic

/-! # Paths continued by names

* `Path.extend`: a path continued by names, one after another.
* `IsPathName`, `isPathName_of_mem`: the names that a path can have in it.
* `pieces_join`: the pieces between the slashes of a path continued by a name.
* `components_extend`, `segments_extend`: the components and the steps of an extended path.
* `extend_below`: where a path is continued, a slash follows it.
* `key?_extend`, `join_key`, `key_path`: the key of an extended path, and the path of a key.
* `mapM_eq_some`, `names_of_texts`: a list that was read is what its values write.
* `extend_injective`, `keyOf?_injective`: names are told from their path and from their key.
* `isArchiveName_extend`: the extension is that of the last name.
-/

set_option autoImplicit false

namespace DirDigest

/-- A path continued by names. -/
def Path.extend (p : Path) (names : List Name) : Path := names.foldl (fun p n => p.join ⟨n⟩) p

/-- The pieces of a path that lead somewhere. -/
def Path.steps (p : Path) : List Bytes := (p.bytes.splitOn slash).filter fun piece => !piece.isEmpty

@[simp] theorem extend_nil (p : Path) : p.extend [] = p := rfl

@[simp] theorem extend_cons (p : Path) (n : Name) (names : List Name) :
    p.extend (n :: names) = (p.join ⟨n⟩).extend names := rfl

theorem extend_append (p : Path) (names more : List Name) :
    p.extend (names ++ more) = (p.extend names).extend more := List.foldl_append

theorem extend_concat (p : Path) (names : List Name) (n : Name) :
    p.extend (names ++ [n]) = (p.extend names).join ⟨n⟩ := extend_append p names [n]

theorem isName_concat {names : List Name} (h : ∀ n ∈ names, IsName n) {n : Name} (hn : IsName n) :
    ∀ m ∈ names ++ [n], IsName m :=
  List.forall_mem_append.2 ⟨h, List.forall_mem_singleton.2 hn⟩

/-- Whether a byte string can be a name in a path: it is not empty, no `.` or `..`, and holds no
slash. The name of an entry holds no zero byte either. -/
def IsPathName (n : Name) : Prop := n ≠ [] ∧ n ≠ [dot] ∧ n ≠ [dot, dot] ∧ slash ∉ n

instance (n : Name) : Decidable (IsPathName n) := by unfold IsPathName; infer_instance

theorem IsName.pathName {n : Name} (h : IsName n) : IsPathName n :=
  ⟨h.1, h.2.1, h.2.2.1, h.2.2.2.1⟩

theorem pathNames {names : List Name} (h : ∀ n ∈ names, IsName n) : ∀ n ∈ names, IsPathName n :=
  fun n hn => (h n hn).pathName

/-! ## Splitting -/

theorem false_of_mem_splitOnP {α : Type} {p : α → Bool} {l : List α} :
    ∀ piece ∈ l.splitOnP p, ∀ a ∈ piece, p a = false := by
  induction l with
  | nil => simp
  | cons first l ih =>
    rw [List.splitOnP_cons_eq_if_modifyHead]
    split
    · exact List.forall_mem_cons.2 ⟨nofun, ih⟩
    · rename_i hfirst
      obtain ⟨piece, pieces, hl⟩ := List.exists_cons_of_ne_nil (List.splitOnP_ne_nil p l)
      rw [hl] at ih
      obtain ⟨hpiece, hpieces⟩ := List.forall_mem_cons.1 ih
      rw [hl, List.modifyHead_cons]
      have hgrown : ∀ a ∈ first :: piece, p a = false :=
        List.forall_mem_cons.2 ⟨Bool.eq_false_iff.2 hfirst, hpiece⟩
      exact List.forall_mem_cons.2 ⟨hgrown, hpieces⟩

theorem sep_notMem_splitOn {sep : UInt8} {bytes : Bytes} :
    ∀ piece ∈ bytes.splitOn sep, sep ∉ piece := by
  intro piece hpiece hsep
  rw [List.splitOn_eq_splitOnP] at hpiece
  have hfalse := false_of_mem_splitOnP piece hpiece sep hsep
  rw [beq_self_eq_true] at hfalse
  cases hfalse

theorem eq_sep_of_splitOn {sep : UInt8} {bytes : Bytes}
    (h : ∀ piece ∈ bytes.splitOn sep, piece = []) {b : UInt8} (hb : b ∈ bytes) : b = sep := by
  induction bytes with
  | nil => cases hb
  | cons first rest ih =>
    rw [List.splitOn_cons_eq_if_modifyHead] at h
    split at h
    · rename_i hfirst
      obtain ⟨-, hrest⟩ := List.forall_mem_cons.1 h
      rcases List.mem_cons.1 hb with rfl | hb
      · exact beq_iff_eq.1 hfirst
      · exact ih hrest hb
    · -- the first piece begins with a byte
      obtain ⟨piece, pieces, hsplit⟩ := List.exists_cons_of_ne_nil (List.splitOn_ne_nil sep rest)
      rw [hsplit, List.modifyHead_cons] at h
      cases h (first :: piece) List.mem_cons_self

/-- Every path but the empty one asks for a step. -/
theorem segments_ne_nil {p : Path} (h : p.bytes ≠ []) : segments p ≠ [] := by
  intro hnil
  obtain ⟨hpieces, hlast⟩ := List.append_eq_nil_iff.1 hnil
  obtain ⟨front, b, hbytes⟩ := (List.eq_nil_or_concat' p.bytes).resolve_left h
  have hempty : ∀ piece ∈ p.bytes.splitOn slash, piece = [] := by
    intro piece hpiece
    simpa using List.filter_eq_nil_iff.1 hpieces piece hpiece
  have hmem : b ∈ p.bytes := hbytes ▸ List.mem_append_right front List.mem_cons_self
  have hb : b = slash := eq_sep_of_splitOn hempty hmem
  rw [hbytes, hb, List.getLast?_concat, if_pos rfl] at hlast
  cases hlast

/-! ## Components -/

theorem ofPiece?_eq_none {piece : Bytes} :
    Component.ofPiece? piece = none ↔ piece = [] ∨ piece = [dot] := by
  unfold Component.ofPiece?
  split
  · rename_i h
    exact iff_of_true rfl h
  · rename_i h
    refine iff_of_false ?_ h
    split
    · nofun
    · nofun

theorem ofPiece?_eq_name {piece : Bytes} {n : Name} : Component.ofPiece? piece = some (.name n) ↔
    piece = n ∧ Component.ofPiece? piece ≠ none ∧ piece ≠ [dot, dot] := by
  rw [Ne, ofPiece?_eq_none, Component.ofPiece?]
  split
  · simp_all
  · split
    · simp_all
    · simp_all

/-- The name of a component is a name in a path. -/
theorem isPathName_of_mem {p : Path} {n : Name} (h : .name n ∈ p.components) : IsPathName n := by
  rcases List.mem_append.1 h with hfirst | hpieces
  · -- what a path starts with is no name
    split at hfirst
    · simp at hfirst
    · split at hfirst
      · simp at hfirst
      · cases hfirst
  · obtain ⟨piece, hpiece, hname⟩ := List.mem_filterMap.1 hpieces
    obtain ⟨rfl, hsome, hup⟩ := ofPiece?_eq_name.1 hname
    obtain ⟨hempty, hhere⟩ := not_or.1 (mt ofPiece?_eq_none.2 hsome)
    exact ⟨hempty, hhere, hup, sep_notMem_splitOn piece hpiece⟩

/-! ## One name -/

section Joining
variable {n : Name} (p : Path)

theorem isAbsolute_name (h : slash ∉ n) : (⟨n⟩ : Path).isAbsolute = false := by
  cases n with
  | nil => rfl
  | cons b rest =>
    have hb : b ≠ slash := fun hb => h (hb ▸ List.mem_cons_self)
    simp [Path.isAbsolute, hb]

theorem join_bytes {q : Path} (hq : q.isAbsolute = false) :
    (p.join q).bytes = p.bytes ++ q.bytes ∧ (p.bytes = [] ∨ p.bytes.getLast? = some slash) ∨
      (p.join q).bytes = p.bytes ++ slash :: q.bytes ∧ p.bytes ≠ [] := by
  unfold Path.join
  rw [hq, if_neg Bool.false_ne_true]
  by_cases hp : p.bytes = [] ∨ p.bytes.getLast? = some slash
  · rw [if_pos hp]
    exact .inl ⟨rfl, hp⟩
  · rw [if_neg hp]
    exact .inr ⟨rfl, fun hnil => hp (.inl hnil)⟩

theorem pieces_join (h : IsPathName n) : ∃ front : List Bytes,
    (p.join ⟨n⟩).bytes.splitOn slash = front ++ [n] ∧
      (p.bytes.splitOn slash = front ∨ p.bytes.splitOn slash = front ++ [[]]) := by
  have hslash : slash ∉ n := h.2.2.2
  have hn := List.splitOn_eq_singleton hslash
  -- an empty path and one that ends in a slash have an empty last piece, whose place the name takes
  rcases join_bytes p (isAbsolute_name hslash) with ⟨hbytes, hp | hp⟩ | ⟨hbytes, -⟩
  · refine ⟨[], ?_, .inr ?_⟩
    · rw [hbytes, hp, List.nil_append, hn, List.nil_append]
    · rw [hp]
      rfl
  · obtain ⟨front, hfront⟩ := List.getLast?_eq_some_iff.1 hp
    refine ⟨front.splitOn slash, ?_, .inr ?_⟩
    · rw [hbytes, hfront, List.append_assoc, List.singleton_append,
        List.splitOn_append_cons_self, hn]
    · rw [hfront, List.splitOn_append_cons_self]
      rfl
  · refine ⟨p.bytes.splitOn slash, ?_, .inl rfl⟩
    rw [hbytes, List.splitOn_append_cons_self, hn]

theorem join_ne_nil (h : IsPathName n) : (p.join ⟨n⟩).bytes ≠ [] := by
  rcases join_bytes p (isAbsolute_name h.2.2.2) with ⟨hbytes, -⟩ | ⟨hbytes, -⟩
  · rw [hbytes]
    exact List.append_ne_nil_of_right_ne_nil _ h.1
  · rw [hbytes]
    exact List.append_ne_nil_of_right_ne_nil _ (List.cons_ne_nil _ _)

theorem getLast?_join (h : IsPathName n) : (p.join ⟨n⟩).bytes.getLast? ≠ some slash := by
  have hlast : n.getLast? ≠ some slash := fun hl => h.2.2.2 (List.mem_of_getLast? hl)
  rcases join_bytes p (isAbsolute_name h.2.2.2) with ⟨hbytes, -⟩ | ⟨hbytes, -⟩
  · rw [hbytes, List.getLast?_append_of_ne_nil _ h.1]
    exact hlast
  · rw [hbytes, List.getLast?_append_of_ne_nil _ (List.cons_ne_nil _ _),
      List.getLast?_cons_of_ne_nil h.1]
    exact hlast

theorem isAbsolute_join (h : IsPathName n) : (p.join ⟨n⟩).isAbsolute = p.isAbsolute := by
  have hn := isAbsolute_name h.2.2.2
  unfold Path.isAbsolute at hn ⊢
  rcases join_bytes p (isAbsolute_name h.2.2.2) with ⟨hbytes, hp⟩ | ⟨hbytes, hp⟩
  · rw [hbytes]
    by_cases hnil : p.bytes = []
    · rw [hnil, List.nil_append, hn]
      rfl
    · rw [List.head?_append_of_ne_nil _ hnil]
  · rw [hbytes, List.head?_append_of_ne_nil _ hp]

theorem components_join (h : IsPathName n) :
    (p.join ⟨n⟩).components = p.components ++ [.name n] := by
  obtain ⟨front, hjoin, hp⟩ := pieces_join p h
  have hname : Component.ofPiece? n = some (.name n) := by
    unfold Component.ofPiece?
    rw [if_neg (not_or.2 ⟨h.1, h.2.1⟩), if_neg h.2.2.1]
  have hhead : (front ++ [n]).head? = some [dot] ↔ (p.bytes.splitOn slash).head? = some [dot] := by
    cases front with
    | nil =>
      rcases hp with hp | hp
      · exact absurd hp (List.splitOn_ne_nil slash p.bytes)
      · rw [hp]
        simp [h.2.1]
    | cons piece pieces => rcases hp with hp | hp <;> rw [hp] <;> rfl
  have htail : (p.bytes.splitOn slash).filterMap Component.ofPiece? =
      front.filterMap Component.ofPiece? := by
    rcases hp with hp | hp
    · rw [hp]
    · rw [hp, List.filterMap_append]
      exact List.append_nil _
  simp only [Path.components, isAbsolute_join p h, hjoin, htail, hhead, List.filterMap_append,
    List.filterMap_cons, List.filterMap_nil, hname, List.append_assoc]

theorem steps_join (h : IsPathName n) : (p.join ⟨n⟩).steps = p.steps ++ [n] := by
  obtain ⟨front, hjoin, hp⟩ := pieces_join p h
  have hn : [n].filter (fun piece => !piece.isEmpty) = [n] := by
    refine List.filter_eq_self.2 fun piece hpiece => ?_
    rw [List.mem_singleton.1 hpiece, Bool.not_eq_true', List.isEmpty_eq_false_iff]
    exact h.1
  have hfront : p.steps = front.filter fun piece => !piece.isEmpty := by
    unfold Path.steps
    rcases hp with hp | hp
    · rw [hp]
    · rw [hp, List.filter_append]
      exact List.append_nil _
  rw [hfront, Path.steps, hjoin, List.filter_append, hn]

theorem mem_join {b : UInt8} (h : IsPathName n) (hb : b ∈ (p.join ⟨n⟩).bytes) :
    b ∈ p.bytes ∨ b = slash ∨ b ∈ n := by
  rcases join_bytes p (isAbsolute_name h.2.2.2) with ⟨hbytes, -⟩ | ⟨hbytes, -⟩
  · rw [hbytes] at hb
    exact (List.mem_append.1 hb).imp id .inr
  · rw [hbytes] at hb
    exact (List.mem_append.1 hb).imp id List.mem_cons.1

theorem join_join {q : Path} (h : IsPathName n) (hq : q.isAbsolute = false) :
    p.join ⟨n ++ slash :: q.bytes⟩ = (p.join ⟨n⟩).join q := by
  have hn := isAbsolute_name h.2.2.2
  have hwhole : (⟨n ++ slash :: q.bytes⟩ : Path).isAbsolute = false := by
    unfold Path.isAbsolute at hn ⊢
    rw [List.head?_append_of_ne_nil _ h.1]
    exact hn
  have hsecond : (p.join ⟨n⟩).join q = ⟨(p.join ⟨n⟩).bytes ++ slash :: q.bytes⟩ := by
    rw [Path.join, hq, if_neg Bool.false_ne_true,
      if_neg (not_or.2 ⟨join_ne_nil p h, getLast?_join p h⟩)]
  rw [hsecond, Path.join, Path.join, hwhole, hn, if_neg Bool.false_ne_true,
    if_neg Bool.false_ne_true]
  split
  · rw [List.append_assoc]
  · rw [List.append_assoc, List.cons_append]

end Joining

/-! ## Several names -/

section Extending
variable {names : List Name} (p : Path)

theorem components_extend (h : ∀ n ∈ names, IsPathName n) :
    (p.extend names).components = p.components ++ names.map Component.name := by
  induction names generalizing p with
  | nil => simp
  | cons n rest ih =>
    obtain ⟨hn, hrest⟩ := List.forall_mem_cons.1 h
    rw [extend_cons, ih (p.join ⟨n⟩) hrest, components_join p hn,
      List.append_assoc]
    rfl

theorem steps_extend (h : ∀ n ∈ names, IsName n) : (p.extend names).steps = p.steps ++ names := by
  induction names generalizing p with
  | nil => simp
  | cons n rest ih =>
    obtain ⟨hn, hrest⟩ := List.forall_mem_cons.1 h
    rw [extend_cons, ih (p.join ⟨n⟩) hrest, steps_join p hn.pathName,
      List.append_assoc]
    rfl

theorem isAbsolute_extend (h : ∀ n ∈ names, IsName n) :
    (p.extend names).isAbsolute = p.isAbsolute := by
  induction names generalizing p with
  | nil => rfl
  | cons n rest ih =>
    obtain ⟨hn, hrest⟩ := List.forall_mem_cons.1 h
    rw [extend_cons, ih (p.join ⟨n⟩) hrest, isAbsolute_join p hn.pathName]

theorem mem_extend {b : UInt8} (h : ∀ n ∈ names, IsName n) (hb : b ∈ (p.extend names).bytes) :
    b ∈ p.bytes ∨ b = slash ∨ ∃ n ∈ names, b ∈ n := by
  induction names generalizing p with
  | nil => exact .inl hb
  | cons n rest ih =>
    obtain ⟨hn, hrest⟩ := List.forall_mem_cons.1 h
    rcases ih (p.join ⟨n⟩) hrest hb with hb | hb | ⟨m, hm, hb⟩
    · rcases mem_join p hn.pathName hb with hb | hb | hb
      · exact .inl hb
      · exact .inr (.inl hb)
      · exact .inr (.inr ⟨n, List.mem_cons_self, hb⟩)
    · exact .inr (.inl hb)
    · exact .inr (.inr ⟨m, List.mem_cons_of_mem n hm, hb⟩)

/-- Different names lead to different paths. -/
theorem extend_injective {others : List Name} (h : ∀ n ∈ names, IsName n)
    (h' : ∀ n ∈ others, IsName n) (heq : p.extend names = p.extend others) : names = others := by
  have hsteps := steps_extend p h
  rw [heq, steps_extend p h'] at hsteps
  exact (List.append_cancel_left hsteps).symm

theorem getLast?_extend (h : ∀ n ∈ names, IsName n) (hne : names ≠ []) :
    (p.extend names).bytes.getLast? ≠ some slash := by
  obtain ⟨before, n, rfl⟩ : ∃ before n, names = before ++ [n] :=
    ⟨_, _, (List.dropLast_append_getLast hne).symm⟩
  rw [extend_concat]
  exact getLast?_join (p.extend before)
    (h n (List.mem_append_right before List.mem_cons_self)).pathName

/-- A path that ends in a name asks for no directory. -/
theorem segments_extend (h : ∀ n ∈ names, IsName n) (hne : names ≠ []) :
    segments (p.extend names) = p.steps ++ names := by
  have hsteps := steps_extend p h
  unfold Path.steps at hsteps
  rw [segments, if_neg (getLast?_extend p h hne), List.append_nil, hsteps]
  rfl

theorem extend_ne_nil (h : ∀ n ∈ names, IsName n) (hne : names ≠ []) :
    (p.extend names).bytes ≠ [] := by
  obtain ⟨before, n, rfl⟩ : ∃ before n, names = before ++ [n] :=
    ⟨_, _, (List.dropLast_append_getLast hne).symm⟩
  rw [extend_concat]
  exact join_ne_nil (p.extend before)
    (h n (List.mem_append_right before List.mem_cons_self)).pathName

theorem extend_bytes (h : ∀ n ∈ names, IsName n) :
    ∃ tail, (p.extend names).bytes = p.bytes ++ tail := by
  induction names generalizing p with
  | nil => exact ⟨[], (List.append_nil _).symm⟩
  | cons n rest ih =>
    obtain ⟨hn, hrest⟩ := List.forall_mem_cons.1 h
    obtain ⟨tail, htail⟩ := ih (p.join ⟨n⟩) hrest
    rcases join_bytes p (isAbsolute_name hn.2.2.2.1) with ⟨hbytes, -⟩ | ⟨hbytes, -⟩
    · exact ⟨n ++ tail, by rw [extend_cons, htail, hbytes, List.append_assoc]⟩
    · exact ⟨slash :: n ++ tail, by rw [extend_cons, htail, hbytes, List.append_assoc]⟩

/-- A path that ends in a name is followed by a slash where it is continued. -/
theorem extend_below {more : List Name} (h : ∀ n ∈ names ++ more, IsName n) (hne : names ≠ [])
    (hmore : more ≠ []) :
    ∃ tail, (p.extend (names ++ more)).bytes = (p.extend names).bytes ++ slash :: tail := by
  obtain ⟨hnames, hvalid⟩ := List.forall_mem_append.1 h
  obtain ⟨n, rest, rfl⟩ := List.exists_cons_of_ne_nil hmore
  obtain ⟨hn, hrest⟩ := List.forall_mem_cons.1 hvalid
  obtain ⟨tail, htail⟩ := extend_bytes ((p.extend names).join ⟨n⟩) hrest
  rcases join_bytes (p.extend names) (isAbsolute_name hn.2.2.2.1) with
    ⟨-, hnil | hslash⟩ | ⟨hbytes, -⟩
  · exact absurd hnil (extend_ne_nil p hnames hne)
  · exact absurd hslash (getLast?_extend p hnames hne)
  · refine ⟨n ++ tail, ?_⟩
    rw [extend_append, extend_cons, htail, hbytes, List.append_assoc]
    rfl

/-! ## Keys -/

/-- The key of names, which does not depend on the root. -/
def keyOf? (names : List Name) : Option String := (names.mapM Bytes.text?).map joinNames

theorem key?_extend (h : ∀ n ∈ names, IsName n) (hne : names ≠ []) :
    (p.extend names).key? p = keyOf? names := by
  have hrelative : (p.extend names).relativeTo? p = some (names.map Component.name) := by
    rw [Path.relativeTo?, components_extend p (pathNames h), FileTree.afterLeading?_append]
  have htexts : (names.map Component.name).mapM Component.text? = names.mapM Bytes.text? :=
    List.mapM_map
  cases names with
  | nil => exact absurd rfl hne
  | cons n rest =>
    unfold Path.key?
    rw [hrelative]
    simp only [List.map_cons] at htexts ⊢
    rw [htexts]
    rfl

theorem utf8_append (s t : String) : utf8 (s ++ t) = utf8 s ++ utf8 t := by
  simp [utf8, String.toByteArray_append]

theorem isAbsolute_joinNames {text : String} {rest : List String} (h : IsPathName (utf8 text)) :
    (⟨utf8 (joinNames (text :: rest))⟩ : Path).isAbsolute = false := by
  have htext := isAbsolute_name h.2.2.2
  cases rest with
  | nil => exact htext
  | cons second more =>
    unfold Path.isAbsolute at htext ⊢
    rw [joinNames, utf8_append, utf8_append, List.append_assoc, List.head?_append_of_ne_nil _ h.1]
    · exact htext
    · exact List.cons_ne_nil second more

theorem join_joinNames {texts : List String} (hne : texts ≠ [])
    (h : ∀ text ∈ texts, IsPathName (utf8 text)) :
    p.join ⟨utf8 (joinNames texts)⟩ = p.extend (texts.map utf8) := by
  induction texts generalizing p with
  | nil => exact absurd rfl hne
  | cons text rest ih =>
    cases rest with
    | nil => rfl
    | cons second more =>
      obtain ⟨htext, hrest⟩ := List.forall_mem_cons.1 h
      have hslash : utf8 "/" = [slash] := rfl
      have hbytes : utf8 (joinNames (text :: second :: more)) =
          utf8 text ++ slash :: utf8 (joinNames (second :: more)) := by
        rw [joinNames, utf8_append, utf8_append, hslash, List.append_assoc, List.singleton_append]
        exact List.cons_ne_nil second more
      rw [hbytes, join_join p htext (isAbsolute_joinNames (hrest second List.mem_cons_self)),
        ih (p.join ⟨utf8 text⟩) (List.cons_ne_nil second more) hrest]
      rfl

theorem mapM_eq_some {α β : Type} {read : α → Option β} {write : β → α}
    (h : ∀ {a b}, read a = some b ↔ a = write b) {items : List α} {values : List β} :
    items.mapM read = some values ↔ items = values.map write := by
  induction items generalizing values with
  | nil => cases values <;> simp
  | cons item rest ih =>
    rw [List.mapM_cons]
    cases values with
    | nil =>
      cases read item with
      | none => simp
      | some value => cases rest.mapM read <;> simp
    | cons value values =>
      rw [List.map_cons, List.cons.injEq, ← h, ← ih]
      cases read item with
      | none => simp
      | some first => cases rest.mapM read <;> simp

theorem text?_eq_some {n : Name} {text : String} : Bytes.text? n = some text ↔ n = utf8 text := by
  constructor
  · intro h
    exact (utf8_of_text? h).symm
  · rintro rfl
    exact text?_utf8 text

theorem names_of_texts {texts : List String} (h : names.mapM Bytes.text? = some texts) :
    texts.map utf8 = names := ((mapM_eq_some text?_eq_some).1 h).symm

theorem join_key {key : String} (h : ∀ n ∈ names, IsName n) (hne : names ≠ [])
    (hk : keyOf? names = some key) : p.join ⟨utf8 key⟩ = p.extend names := by
  obtain ⟨texts, htexts, rfl⟩ := Option.map_eq_some_iff.1 hk
  have hnames := names_of_texts htexts
  have htexts' : texts ≠ [] := by
    rintro rfl
    exact hne hnames.symm
  have hvalid : ∀ text ∈ texts, IsPathName (utf8 text) := fun text htext =>
    (h _ (hnames ▸ List.mem_map_of_mem htext)).pathName
  rw [join_joinNames p htexts' hvalid, hnames]

/-- A key is itself a path, made of its names. -/
theorem key_path {key : String} (h : ∀ n ∈ names, IsName n) (hne : names ≠ [])
    (hk : keyOf? names = some key) :
    (⟨utf8 key⟩ : Path).isAbsolute = false ∧ (⟨utf8 key⟩ : Path) = (⟨[]⟩ : Path).extend names := by
  have hrelative : (⟨utf8 key⟩ : Path).isAbsolute = false := by
    obtain ⟨texts, htexts, rfl⟩ := Option.map_eq_some_iff.1 hk
    obtain rfl := names_of_texts htexts
    cases texts with
    | nil => exact absurd rfl hne
    | cons text rest => exact isAbsolute_joinNames (h _ List.mem_cons_self).pathName
  have hjoin := join_key ⟨[]⟩ h hne hk
  rw [Path.join, hrelative, if_neg Bool.false_ne_true, if_pos (.inl rfl), List.nil_append] at hjoin
  exact ⟨hrelative, hjoin⟩

theorem key_ne_nil {key : String} (h : ∀ n ∈ names, IsName n) (hne : names ≠ [])
    (hk : keyOf? names = some key) : utf8 key ≠ [] := by
  intro hnil
  refine extend_ne_nil ⟨[]⟩ h hne ?_
  rw [← (key_path h hne hk).2]
  exact hnil

theorem steps_key {key : String} (h : ∀ n ∈ names, IsName n) (hne : names ≠ [])
    (hk : keyOf? names = some key) : (⟨utf8 key⟩ : Path).steps = names := by
  rw [(key_path h hne hk).2, steps_extend ⟨[]⟩ h]
  rfl

/-- Different names have different keys. -/
theorem keyOf?_injective {others : List Name} (h : ∀ n ∈ names, IsName n) (hne : names ≠ [])
    (h' : ∀ n ∈ others, IsName n) (hne' : others ≠ []) {key : String} (hk : keyOf? names = some key)
    (hk' : keyOf? others = some key) : names = others := by
  have hjoin := join_key ⟨[]⟩ h hne hk
  rw [join_key ⟨[]⟩ h' hne' hk'] at hjoin
  exact (extend_injective ⟨[]⟩ h' h hjoin).symm

/-- Whether names make an archive is told by the last of them. -/
theorem isArchiveName_extend (c : Config) (q : Path) (h : ∀ n ∈ names, IsName n) (hne : names ≠ []) :
    c.isArchiveName (p.extend names) = c.isArchiveName (q.extend names) := by
  have hname : ∀ r : Path, (r.extend names).components.getLast? =
      (names.map Component.name).getLast? := by
    intro r
    rw [components_extend r (pathNames h)]
    exact List.getLast?_append_of_ne_nil _ (fun hnil => hne (List.map_eq_nil_iff.1 hnil))
  simp only [Config.isArchiveName, Path.extension?, Path.fileName?, hname]

end Extending

/-! ## Doubled slashes -/

section Doubled
variable (front : Bytes) {rest : Bytes}

theorem pieces_slash (rest : Bytes) :
    (slash :: rest).splitOn slash = [] :: rest.splitOn slash :=
  List.splitOn_append_cons_self [] rest

theorem segments_doubled (h : rest ≠ []) :
    segments ⟨front ++ slash :: slash :: rest⟩ = segments ⟨front ++ slash :: rest⟩ := by
  have hlast : ∀ middle : Bytes, (front ++ middle ++ rest).getLast? = rest.getLast? :=
    fun middle => List.getLast?_append_of_ne_nil _ h
  have honce := hlast [slash]
  have htwice := hlast [slash, slash]
  rw [List.append_assoc] at honce htwice
  simp only [List.cons_append, List.nil_append] at honce htwice
  simp only [segments, honce, htwice, List.splitOn_append_cons_self, pieces_slash,
    List.filter_append, List.filter_cons, List.isEmpty_nil, Bool.not_true, Bool.false_eq_true,
    if_false]

theorem isAbsolute_doubled (rest : Bytes) : (⟨front ++ slash :: slash :: rest⟩ : Path).isAbsolute =
    (⟨front ++ slash :: rest⟩ : Path).isAbsolute := by
  cases front with
  | nil => rfl
  | cons b front => rfl

theorem components_doubled (rest : Bytes) : (⟨front ++ slash :: slash :: rest⟩ : Path).components =
    (⟨front ++ slash :: rest⟩ : Path).components := by
  have hhead : ∀ pieces : List Bytes,
      (front.splitOn slash ++ pieces).head? = (front.splitOn slash).head? :=
    fun pieces => List.head?_append_of_ne_nil _ (List.splitOn_ne_nil slash front)
  simp only [Path.components, isAbsolute_doubled, List.splitOn_append_cons_self, pieces_slash,
    hhead, List.filterMap_append, List.filterMap_cons, Component.ofPiece?, true_or, if_true]

end Doubled

end DirDigest
