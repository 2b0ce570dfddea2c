import DirDigest.Proofs.Path
import DirDigest.Walk

/-! # Keys below a root

A key is made of the names that lead from a root to a path, and it leads there again.

* `LeadsBy`: names that are texts lead from a root to a path.
* `key_eq_ok`, `key_eq_invalidPath`: such names are joined to the key; without them there is none.
* `joinNames_injective`: names are told from the key that joins them.
* `KeyLaws`, `keyLaws`: how paths and their keys belong together, whatever the root.
-/

set_option autoImplicit false

namespace DirDigest

/-! ## Components as texts -/

theorem Component.text?_eq_some {c : Component} {text : String} :
    c.text? = some text ↔ c = .name (utf8 text) := by
  cases c with
  | name n => rw [Component.text?, DirDigest.text?_eq_some, Component.name.injEq]
  | root => simp [Component.text?]
  | here => simp [Component.text?]
  | up => simp [Component.text?]

theorem texts_eq_some {components : List Component} {texts : List String} :
    components.mapM Component.text? = some texts ↔
      components = (texts.map utf8).map Component.name := by
  rw [List.map_map]
  exact mapM_eq_some Component.text?_eq_some

/-- Whether names that are texts, at least one, lead from a root to a path. -/
structure LeadsBy (root p : Path) (texts : List String) : Prop where
  notEmpty : texts ≠ []
  components : p.components = root.components ++ (texts.map utf8).map Component.name

section Keys
variable {p root : Path} {key : String} {texts others : List String}

theorem LeadsBy.named (h : LeadsBy root p texts) : ∀ text ∈ texts, IsPathName (utf8 text) := by
  intro text htext
  have hmem : .name (utf8 text) ∈ p.components := by
    rw [h.components]
    exact List.mem_append_right _ (List.mem_map_of_mem (List.mem_map_of_mem htext))
  exact isPathName_of_mem hmem

theorem leadsBy_extend {names : List Name} (h : ∀ n ∈ names, IsPathName n) :
    LeadsBy root (root.extend names) texts ↔ texts ≠ [] ∧ names = texts.map utf8 := by
  have hcomponents := components_extend root h
  constructor
  · rintro ⟨hne, htexts⟩
    rw [hcomponents, List.append_cancel_left_eq] at htexts
    exact ⟨hne, (List.map_inj_right fun _ _ => Component.name.inj).1 htexts⟩
  · rintro ⟨hne, rfl⟩
    exact ⟨hne, hcomponents⟩

theorem key?_eq_some : p.key? root = some key ↔
    ∃ texts, LeadsBy root p texts ∧ joinNames texts = key := by
  unfold Path.key?
  constructor
  · intro h
    -- a path elsewhere has no key, and neither has the root itself
    split at h
    · cases h
    · cases h
    · rename_i components hnil hbelow
      obtain ⟨texts, htexts, hkey⟩ := Option.map_eq_some_iff.1 h
      have hnames := texts_eq_some.1 htexts
      have hcomponents := FileTree.afterLeading?_eq_some.1 hbelow
      refine ⟨texts, ⟨?_, hnames ▸ hcomponents⟩, hkey⟩
      rintro rfl
      exact hnil hnames
  · rintro ⟨texts, ⟨hne, hcomponents⟩, rfl⟩
    obtain ⟨text, rest, rfl⟩ := List.exists_cons_of_ne_nil hne
    have hbelow : p.relativeTo? root = some (((text :: rest).map utf8).map Component.name) :=
      FileTree.afterLeading?_eq_some.2 hcomponents
    have htexts := texts_eq_some.2 (rfl : ((text :: rest).map utf8).map Component.name = _)
    rw [List.map_cons, List.map_cons] at hbelow htexts
    simp only [hbelow, htexts, Option.map_some]

theorem key_eq_ok : WalkItem.key root (.ok p) = .ok key ↔
    ∃ texts, LeadsBy root p texts ∧ joinNames texts = key := by
  rw [← key?_eq_some, WalkItem.key]
  cases p.key? root with
  | none => simp
  | some found => simp

theorem key_eq_invalidPath : WalkItem.key root (.ok p) = .error (.invalidPath p) ↔
    ∀ texts, ¬LeadsBy root p texts := by
  have hnone : p.key? root = none ↔ ∀ texts, ¬LeadsBy root p texts := by
    simp only [Option.eq_none_iff_forall_ne_some, Ne, key?_eq_some, not_exists, not_and]
    exact ⟨fun h texts hleads => h _ texts hleads rfl, fun h _ texts hleads _ => h texts hleads⟩
  rw [← hnone, WalkItem.key]
  cases p.key? root with
  | none => simp
  | some found => simp

/-! ## Joined names -/

theorem joinNames_eq_intercalate (texts : List String) :
    joinNames texts = "/".intercalate texts := by
  induction texts with
  | nil => rfl
  | cons text rest ih =>
    cases rest with
    | nil => rw [joinNames, String.intercalate_singleton]
    | cons next rest =>
      rw [joinNames, ih, String.intercalate_cons_of_ne_nil (List.cons_ne_nil next rest)]
      exact List.cons_ne_nil next rest

/-- Different names are joined to different keys. -/
theorem joinNames_injective (hne : texts ≠ []) (h : ∀ text ∈ texts, IsPathName (utf8 text))
    (hne' : others ≠ []) (h' : ∀ text ∈ others, IsPathName (utf8 text))
    (heq : joinNames texts = joinNames others) : texts = others := by
  have hpath := join_joinNames ⟨[]⟩ hne h
  rw [heq, join_joinNames ⟨[]⟩ hne' h'] at hpath
  have hcomponents := congrArg Path.components hpath
  rw [components_extend _ (List.forall_mem_map.2 h'), components_extend _ (List.forall_mem_map.2 h),
    List.append_cancel_left_eq] at hcomponents
  have hnames := (List.map_inj_right fun _ _ => Component.name.inj).1 hcomponents
  exact ((List.map_inj_right fun _ _ => utf8_injective).1 hnames).symm

theorem LeadsBy.rejoined (h : LeadsBy root p texts) :
    (root.join ⟨utf8 (joinNames texts)⟩).components = p.components := by
  rw [join_joinNames root h.notEmpty h.named, components_extend root (List.forall_mem_map.2 h.named),
    h.components]

end Keys

/-! ## Laws -/

/-- How paths and their keys below a root belong together. Two paths count as one if they have the
same components. -/
structure KeyLaws (root : Path) : Prop where
  /-- Names that are texts are joined by slashes. -/
  joined : ∀ texts : List String, texts ≠ [] → (∀ text ∈ texts, IsPathName (utf8 text)) →
    WalkItem.key root (.ok (root.extend (texts.map utf8))) = .ok ("/".intercalate texts)
  /-- Names that are not all texts have no key. -/
  unreadable : ∀ names : List Name, (∀ n ∈ names, IsPathName n) →
    (∃ n ∈ names, ∀ text, utf8 text ≠ n) →
    WalkItem.key root (.ok (root.extend names)) = .error (.invalidPath (root.extend names))
  /-- Different names have different keys, also below different roots. -/
  distinct : ∀ (root' : Path) (names others : List Name) (key : String),
    (∀ n ∈ names, IsPathName n) → (∀ n ∈ others, IsPathName n) →
    WalkItem.key root (.ok (root.extend names)) = .ok key →
    WalkItem.key root' (.ok (root'.extend others)) = .ok key → names = others
  /-- A key leads from the root to the path again. -/
  rejoined : ∀ (p : Path) (key : String), WalkItem.key root (.ok p) = .ok key →
    (root.join ⟨utf8 key⟩).components = p.components
  /-- A path that is not below the root has no key. -/
  outside : ∀ p : Path, ¬root.components <+: p.components →
    WalkItem.key root (.ok p) = .error (.invalidPath p)
  /-- The root has no key, however it is spelled. -/
  itself : ∀ p : Path, p.components = root.components →
    WalkItem.key root (.ok p) = .error (.invalidPath p)
  /-- A path that leads upwards below the root has no key. -/
  upward : ∀ (p : Path) (below : List Component), p.components = root.components ++ below →
    .up ∈ below → WalkItem.key root (.ok p) = .error (.invalidPath p)

theorem keyLaws (root : Path) : KeyLaws root where
  joined texts hne h := by
    have hleads : LeadsBy root (root.extend (texts.map utf8)) texts :=
      (leadsBy_extend (List.forall_mem_map.2 h)).2 ⟨hne, rfl⟩
    exact key_eq_ok.2 ⟨texts, hleads, joinNames_eq_intercalate texts⟩
  unreadable names h hunreadable := by
    refine key_eq_invalidPath.2 fun texts hleads => ?_
    obtain ⟨-, rfl⟩ := (leadsBy_extend h).1 hleads
    obtain ⟨n, hn, hnone⟩ := hunreadable
    obtain ⟨text, -, htext⟩ := List.mem_map.1 hn
    exact hnone text htext
  distinct root' names others key h h' hkey hkey' := by
    obtain ⟨texts, hleads, hjoined⟩ := key_eq_ok.1 hkey
    obtain ⟨texts', hleads', hjoined'⟩ := key_eq_ok.1 hkey'
    obtain ⟨hne, rfl⟩ := (leadsBy_extend h).1 hleads
    obtain ⟨hne', rfl⟩ := (leadsBy_extend h').1 hleads'
    rw [joinNames_injective hne hleads.named hne' hleads'.named (hjoined.trans hjoined'.symm)]
  rejoined p key hkey := by
    obtain ⟨texts, hleads, rfl⟩ := key_eq_ok.1 hkey
    exact hleads.rejoined
  outside p houtside :=
    key_eq_invalidPath.2 fun _ hleads => houtside ⟨_, hleads.components.symm⟩
  itself p hroot := by
    refine key_eq_invalidPath.2 fun texts hleads => ?_
    have hnil := List.self_eq_append_right.1 (hroot.symm.trans hleads.components)
    simp [hleads.notEmpty] at hnil
  upward p below hbelow hup := by
    refine key_eq_invalidPath.2 fun texts hleads => ?_
    have hnames := List.append_cancel_left (hbelow.symm.trans hleads.components)
    simp [hnames] at hup

theorem keyLaws_sample :
    WalkItem.key "./b//" (.ok "./b//a\x00/c.d") = .ok "a\x00/c.d" ∧
      WalkItem.key "" (.ok ⟨[0x61, slash, 0xFF]⟩) = .error (.invalidPath ⟨[0x61, slash, 0xFF]⟩) ∧
      (("./b//" : Path).join "a/c").components = ("./b/./a//c/" : Path).components ∧
      WalkItem.key "b" (.ok "./b/a") = .error (.invalidPath "./b/a") ∧
      WalkItem.key "/.." (.ok "/./..//") = .error (.invalidPath "/./..//") ∧
      WalkItem.key "b" (.ok "b/a/../c") = .error (.invalidPath "b/a/../c") := by
  have hjoined := (keyLaws "./b//").joined ["a\x00", "c.d"] (by decide) (by decide)
  have hnone : ∀ text, utf8 text ≠ [0xFF] := by
    intro text htext
    have hread := text?_utf8 text
    rw [htext] at hread
    cases hread
  have hunreadable := (keyLaws "").unreadable [[0x61], [0xFF]] (by decide)
    ⟨[0xFF], by decide, hnone⟩
  have hrejoined := (keyLaws "./b//").rejoined "./b/./a//c/" "a/c" (by decide)
  have houtside := (keyLaws "b").outside "./b/a" (by decide)
  have hitself := (keyLaws "/..").itself "/./..//" (by decide)
  have hupward := (keyLaws "b").upward "b/a/../c" [.name (utf8 "a"), .up, .name (utf8 "c")]
    (by decide) (by decide)
  exact ⟨hjoined, hunreadable, hrejoined, houtside, hitself, hupward⟩

end DirDigest
