import DirDigest.Proofs.CommandOutcome
import DirDigest.Proofs.Text
import Mathlib.Data.List.DropRight

/-! # Which keys can be ignored

A path that a user gives is brought into the form of a key before it is compared with keys. The form
has no backslash, and a key may have one.

* `IsKey`, `isKey_of_collectKeys`: the grammar of keys, and that all collected keys follow it.
* `trimBlank_eq_self`, `dropHere_name`, `trimEnd_key`: what each rewriting leaves as it is.
* `normalize_eq_self`, `normalize_dressed`, `normalize_ne`: the texts that are brought into the form
  of a given key.
* `ignorable_keys`: the keys that a command can be made to leave out.
-/

set_option autoImplicit false

namespace DirDigest

/-! ## The grammar of keys -/

/-- Whether a text is one between slashes. -/
structure IsNameText (text : String) : Prop where
  notEmpty : text ≠ ""
  notHere : text ≠ "."
  notUp : text ≠ ".."
  noSlash : '/' ∉ text.toList

/-- Whether a text is one that the walk can name an entry by. -/
def IsKey (key : String) : Prop :=
  ∃ texts : List String, texts ≠ [] ∧ (∀ text ∈ texts, IsNameText text) ∧ key = joinNames texts

theorem isNameText_of_isName {text : String} (h : IsName (utf8 text)) : IsNameText text where
  notEmpty := by
    rintro rfl
    exact h.1 rfl
  notHere := by
    rintro rfl
    exact h.2.1 rfl
  notUp := by
    rintro rfl
    exact h.2.2.1 rfl
  noSlash hslash := h.2.2.2.1 (mem_utf8 hslash (by decide))

theorem isKey_of_collectKeys {t : FileTree} {follow : Bool} {root : Path} {keys : List String}
    (hk : collectKeys t follow root = .ok keys) : ∀ key ∈ keys, IsKey key := by
  intro key hkey
  obtain ⟨l, entries, hcollected⟩ := collected hk
  obtain ⟨names, hnames, hname⟩ := hcollected.key_names hkey
  obtain ⟨hne, hvalid⟩ := hcollected.named names hnames
  obtain ⟨texts, htexts, rfl⟩ := Option.map_eq_some_iff.1 hname
  obtain rfl := names_of_texts htexts
  refine ⟨texts, fun hnil => hne (by rw [hnil]; rfl), fun text htext => ?_, rfl⟩
  exact isNameText_of_isName (hvalid _ (List.mem_map_of_mem htext))

/-! ## Trimming -/

section Trimming
variable {drop : Char → Bool} {cs : List Char}

theorem trimEnd_sublist (drop : Char → Bool) (cs : List Char) : (trimEnd drop cs).Sublist cs :=
  (List.rdropWhile_prefix drop (l := cs)).sublist

theorem trimEnd_eq_self : trimEnd drop cs = cs ↔ ∀ c, cs.getLast? = some c → drop c = false := by
  rw [show trimEnd drop cs = cs.rdropWhile drop from rfl, List.rdropWhile_eq_self_iff]
  rcases List.eq_nil_or_concat cs with rfl | ⟨front, last, rfl⟩
  · simp
  · simp

theorem dropWhile_eq_self :
    cs.dropWhile drop = cs ↔ ∀ c, cs.head? = some c → drop c = false := by
  rw [List.dropWhile_eq_self_iff]
  cases cs with
  | nil => simp
  | cons c rest => simp

theorem trimBlank_sublist (cs : List Char) : (trimBlank cs).Sublist cs :=
  (trimEnd_sublist isBlank _).trans (List.dropWhile_sublist isBlank)

theorem trimBlank_eq_self : trimBlank cs = cs ↔
    (∀ c, cs.head? = some c → isBlank c = false) ∧
      ∀ c, cs.getLast? = some c → isBlank c = false := by
  rw [← dropWhile_eq_self, ← trimEnd_eq_self]
  constructor
  · intro h
    -- both ends are trimmed, so nothing can be taken off one of them alone
    have hfront : cs.dropWhile isBlank = cs := by
      apply (List.dropWhile_sublist isBlank).antisymm
      have hsub := trimEnd_sublist isBlank (cs.dropWhile isBlank)
      rwa [show trimEnd isBlank (cs.dropWhile isBlank) = cs from h] at hsub
    have hback : trimEnd isBlank (cs.dropWhile isBlank) = cs := h
    rw [hfront] at hback
    exact ⟨hfront, hback⟩
  · rintro ⟨hfront, hback⟩
    rw [trimBlank, hfront, hback]

theorem dropHere_sublist (cs : List Char) : (dropHere cs).Sublist cs := by
  fun_induction dropHere cs with
  | case1 rest ih => exact (ih.cons _).cons _
  | case2 cs hother => exact .refl cs

end Trimming

/-! ## Backslashes -/

theorem forwardSlashes_eq_self {cs : List Char} (h : '\\' ∉ cs) : forwardSlashes cs = cs := by
  have hid : ∀ c ∈ cs, (if c = '\\' then '/' else c) = c := by
    intro c hc
    apply if_neg
    rintro rfl
    exact h hc
  rw [forwardSlashes, List.map_congr_left hid, List.map_id']

theorem backslash_notMem_forwardSlashes (cs : List Char) : '\\' ∉ forwardSlashes cs := by
  intro hmem
  obtain ⟨c, -, hc⟩ := List.mem_map.1 hmem
  split at hc
  · exact absurd hc (by decide)
  · rename_i hne
    exact hne hc

theorem normalizeChars_sublist (cs : List Char) :
    (normalizeChars cs).Sublist (forwardSlashes (trimBlank cs)) :=
  (trimEnd_sublist _ _).trans (dropHere_sublist _)

theorem backslash_notMem_normalizeChars (cs : List Char) : '\\' ∉ normalizeChars cs := fun h =>
  backslash_notMem_forwardSlashes _ ((normalizeChars_sublist cs).subset h)

/-! ## Ends of keys -/

theorem dropHere_part {part : List Char} (h : part ≠ ['.']) (hslash : '/' ∉ part)
    {tail : List Char} (htail : part = [] → tail.head? ≠ some '.') :
    dropHere (part ++ tail) = part ++ tail := by
  unfold dropHere
  split
  · rename_i rest heq
    -- a part that starts with a dot goes on with something else than a slash
    exfalso
    cases part with
    | nil =>
      rw [List.nil_append] at heq
      exact htail rfl (by rw [heq]; rfl)
    | cons c part =>
      obtain ⟨rfl, hmore⟩ := List.cons.inj heq
      cases part with
      | nil => exact h rfl
      | cons d part =>
        obtain ⟨rfl, -⟩ := List.cons.inj hmore
        exact hslash (List.mem_cons_of_mem _ List.mem_cons_self)
  · rfl

theorem dropHere_name {text : String} (h : IsNameText text) (tail : List Char) :
    dropHere (text.toList ++ tail) = text.toList ++ tail := by
  refine dropHere_part (fun hhere => h.notHere (String.toList_inj.1 hhere)) h.noSlash ?_
  exact fun hnil => absurd (String.toList_inj.1 hnil) h.notEmpty

theorem joinNames_cons (text : String) (rest : List String) :
    ∃ tail, (joinNames (text :: rest)).toList = text.toList ++ tail := by
  cases rest with
  | nil => exact ⟨[], (List.append_nil _).symm⟩
  | cons second more =>
    refine ⟨'/' :: (joinNames (second :: more)).toList, ?_⟩
    simp [joinNames, String.toList_append]

theorem joinNames_last {texts : List String} (hne : texts ≠ [])
    (h : ∀ text ∈ texts, IsNameText text) :
    (joinNames texts).toList ≠ [] ∧ (joinNames texts).toList.getLast? ≠ some '/' := by
  induction texts with
  | nil => exact absurd rfl hne
  | cons text rest ih =>
    obtain ⟨htext, hrest⟩ := List.forall_mem_cons.1 h
    cases rest with
    | nil =>
      refine ⟨fun hnil => htext.notEmpty (String.toList_inj.1 hnil), fun hlast => ?_⟩
      exact htext.noSlash (List.mem_of_getLast? hlast)
    | cons second more =>
      obtain ⟨hmore, hlast⟩ := ih (List.cons_ne_nil second more) hrest
      have hchars : (joinNames (text :: second :: more)).toList =
          (text.toList ++ ['/']) ++ (joinNames (second :: more)).toList := by
        simp [joinNames, String.toList_append]
      rw [hchars, List.getLast?_append_of_ne_nil _ hmore]
      exact ⟨List.append_ne_nil_of_right_ne_nil _ hmore, hlast⟩

section Keys
variable {key : String} (h : IsKey key)
include h

theorem dropHere_key (tail : List Char) :
    dropHere (key.toList ++ tail) = key.toList ++ tail := by
  obtain ⟨texts, hne, htexts, rfl⟩ := h
  cases texts with
  | nil => exact absurd rfl hne
  | cons text rest =>
    obtain ⟨more, hchars⟩ := joinNames_cons text rest
    rw [hchars, List.append_assoc]
    exact dropHere_name (htexts text List.mem_cons_self) (more ++ tail)

theorem trimEnd_key : trimEnd (· == '/') key.toList = key.toList := by
  obtain ⟨texts, hne, htexts, rfl⟩ := h
  rw [trimEnd_eq_self]
  intro c hc
  rw [beq_eq_false_iff_ne]
  rintro rfl
  exact (joinNames_last hne htexts).2 hc

end Keys

/-! ## The form of a key -/

/-- Whether a text starts or ends with white space. -/
def Fringed (text : String) : Prop :=
  (∃ c, text.toList.head? = some c ∧ isBlank c = true) ∨
    ∃ c, text.toList.getLast? = some c ∧ isBlank c = true

theorem trimBlank_toList {text : String} :
    trimBlank text.toList = text.toList ↔ ¬Fringed text := by
  rw [trimBlank_eq_self]
  simp [Fringed]

theorem normalize_eq_iff {text key : String} :
    normalize text = key ↔ normalizeChars text.toList = key.toList := by
  rw [normalize, ← String.toList_inj, String.toList_ofList]

theorem normalize_ne {key : String} (h : '\\' ∈ key.toList) (text : String) :
    normalize text ≠ key := by
  rw [ne_eq, normalize_eq_iff]
  intro heq
  rw [← heq] at h
  exact backslash_notMem_normalizeChars _ h

section Keys
variable {key : String} (h : IsKey key)
include h

theorem normalize_eq_self : normalize key = key ↔ '\\' ∉ key.toList ∧ ¬Fringed key := by
  rw [normalize_eq_iff, ← trimBlank_toList]
  constructor
  · intro heq
    refine ⟨heq ▸ backslash_notMem_normalizeChars key.toList, ?_⟩
    have hlength := (normalizeChars_sublist key.toList).length_le
    rw [heq, forwardSlashes, List.length_map] at hlength
    exact (trimBlank_sublist key.toList).eq_of_length_le hlength
  · rintro ⟨hback, hblank⟩
    have hhere := dropHere_key h []
    rw [List.append_nil] at hhere
    rw [normalizeChars, hblank, forwardSlashes_eq_self hback, hhere, trimEnd_key h]

theorem normalize_dressed (hback : '\\' ∉ key.toList) : normalize ("./" ++ key ++ "/") = key := by
  have hchars : ("./" ++ key ++ "/").toList = '.' :: '/' :: (key.toList ++ ['/']) := by
    simp [String.toList_append]
  have hblank : trimBlank ('.' :: '/' :: (key.toList ++ ['/'])) =
      '.' :: '/' :: (key.toList ++ ['/']) := by
    rw [trimBlank_eq_self]
    constructor
    · intro c hc
      obtain rfl : '.' = c := Option.some.inj hc
      decide
    · intro c hc
      rw [← List.cons_append, ← List.cons_append, List.getLast?_concat] at hc
      obtain rfl : '/' = c := Option.some.inj hc
      decide
  have hslashes : '\\' ∉ '.' :: '/' :: (key.toList ++ ['/']) := by
    simp [hback]
  have hend : trimEnd (· == '/') (key.toList ++ ['/']) = trimEnd (· == '/') key.toList :=
    List.rdropWhile_concat_pos _ _ _ rfl
  rw [normalize_eq_iff, hchars, normalizeChars, hblank, forwardSlashes_eq_self hslashes, dropHere,
    dropHere_key h, hend, trimEnd_key h]

end Keys

/-! ## Runs with one more ignored path -/

/-- The options with one more ignored path. -/
def TreeOptions.ignoring (options : TreeOptions) (value : String) : TreeOptions :=
  { options with ignored := options.ignored ++ [value] }

section Runs
variable {t : FileTree} {f : Format} {root : Path} {options : TreeOptions}
  {ignored keys : List String} {map : DigestMap}

theorem loadIgnored_eq_ok (h : loadIgnored t options = .ok ignored) :
    ∃ file : Option String, ∀ given : List String,
      loadIgnored t { options with ignored := given } = .ok (ignoreSet given file) := by
  unfold loadIgnored at h ⊢
  cases hfile : options.ignoreFile with
  | none => exact ⟨none, fun given => rfl⟩
  | some file =>
    rw [hfile] at h
    cases htext : t.readText file with
    | ok text => exact ⟨some text, fun given => by simp only [htext]⟩
    | error cause =>
      simp only [htext] at h
      cases h

theorem mem_loadIgnored_ignoring (h : loadIgnored t options = .ok ignored) (value : String) :
    ∃ more, loadIgnored t (options.ignoring value) = .ok more ∧
      ∀ key, key ∈ more ↔ key = normalize value ∨ key ∈ ignored := by
  obtain ⟨file, hload⟩ := loadIgnored_eq_ok h
  obtain rfl := Except.ok.inj ((hload options.ignored).symm.trans h)
  refine ⟨_, hload (options.ignored ++ [value]), fun key => ?_⟩
  simp only [ignoreSet, List.mem_append, List.map_append, List.map_singleton, List.mem_singleton]
  rw [or_right_comm, or_comm]

theorem backslash_notMem_ignored (h : loadIgnored t options = .ok ignored) {key : String}
    (hkey : key ∈ ignored) : '\\' ∉ key.toList := by
  obtain ⟨file, hload⟩ := loadIgnored_eq_ok h
  obtain rfl := Except.ok.inj ((hload options.ignored).symm.trans h)
  rcases List.mem_append.1 hkey with hgiven | hfile
  · obtain ⟨value, -, rfl⟩ := List.mem_map.1 hgiven
    exact fun hback => normalize_ne hback value rfl
  · cases file with
    | none => cases hfile
    | some content =>
      obtain ⟨line, -, rfl⟩ := List.mem_map.1 hfile
      rw [String.toList_ofList]
      exact backslash_notMem_normalizeChars line

/-- Whether the command ends well and the map that it reports lacks a key. -/
def LeavesOut (t : FileTree) (f : Format) (root : Path) (options : TreeOptions) (key : String) :
    Prop :=
  (runDigest t f root options).failure = none ∧
    ∃ ignored map, loadIgnored t options = .ok ignored ∧ TreeHas t root options ignored map ∧
      (runDigest t f root options).report = f.map root map ∧ key ∉ map.keys

theorem runDigest_of_has (hload : loadIgnored t options = .ok ignored)
    (hhas : TreeHas t root options ignored map) :
    (runDigest t f root options).failure = none ∧
      (runDigest t f root options).report = f.map root map := by
  unfold runDigest
  rcases digestTree_cases t root options ignored with
    ⟨e, events, -, -, hnone⟩ | ⟨other, events, hrun, -, hother⟩
  · exact absurd hhas (hnone map)
  · obtain rfl := (hother map).1 hhas
    simp only [hload, hrun, and_self]

section Collected
variable (hk : collectKeys t options.followLinks root = .ok keys)
include hk

theorem mem_keys_of_has (hhas : TreeHas t root options ignored map) {key : String} :
    key ∈ map.keys ↔ key ∈ keys ∧ key ∉ ignored := by
  obtain ⟨others, digest, hothers, -, rfl⟩ := silent_eq_ok.1 hhas
  obtain rfl := Except.ok.inj (hk.symm.trans hothers)
  have hnodup : (liveKeys ignored keys).Nodup := (collectKeys_nodup hk).filter _
  rw [(keys_insertAll digest hnodup).mem_iff, mem_liveKeys]

variable (hload : loadIgnored t options = .ok ignored) {key : String}
include hload

theorem kept_of_backslash (hhas : TreeHas t root options ignored map) (hkey : key ∈ keys)
    (hback : '\\' ∈ key.toList) : key ∈ map.keys :=
  (mem_keys_of_has hk hhas).2 ⟨hkey, fun hmem => backslash_notMem_ignored hload hmem hback⟩

theorem leavesOut_of_reads (f : Format) (hkey : key ∈ ignored)
    (hreads : ∀ other ∈ keys, other ∉ ignored →
      (Digester.new options.config).ReadsKey t root other) :
    LeavesOut t f root options key := by
  have hlive : ∀ other ∈ liveKeys ignored keys,
      (Digester.new options.config).ReadsKey t root other := by
    intro other hother
    obtain ⟨hlisted, hnot⟩ := mem_liveKeys.1 hother
    exact hreads other hlisted hnot
  choose! digest hdigest using hlive
  have hhas : TreeHas t root options ignored
      (DigestMap.empty.insertAll digest (liveKeys ignored keys)) :=
    silent_eq_ok.2 ⟨keys, digest, hk, hdigest, rfl⟩
  obtain ⟨hfailure, hreport⟩ := runDigest_of_has (f := f) hload hhas
  refine ⟨hfailure, ignored, _, hload, hhas, hreport, fun hmap => ?_⟩
  exact ((mem_keys_of_has hk hhas).1 hmap).2 hkey

end Collected

end Runs

/-! ## All keys -/

/-- How a key can be written as an ignored path. -/
structure Writings (key : String) : Prop where
  itself : normalize key = key ↔ '\\' ∉ key.toList ∧ ¬Fringed key
  dressed : '\\' ∉ key.toList → normalize ("./" ++ key ++ "/") = key
  never : '\\' ∈ key.toList → ∀ text, normalize text ≠ key

/-- What ignored paths do about a key of a walk; `keys` are all keys of the walk and `ignored` is
what the options ignore by themselves. -/
structure Ignorable (t : FileTree) (f : Format) (root : Path) (options : TreeOptions)
    (keys ignored : List String) (key : String) : Prop where
  grammar : IsKey key
  /-- One more path can make the command ignore the key. -/
  value : (∃ value more, loadIgnored t (options.ignoring value) = .ok more ∧ key ∈ more) ↔
    '\\' ∉ key.toList
  /-- No sink is told of a key that is ignored. -/
  untold : ∀ given more, loadIgnored t { options with ignored := given } = .ok more → key ∈ more →
    ∀ {σ : Type} (sink : StatusSink σ) (s : σ), .report key ∉
      ((Digester.new options.config).digestDirectory t root more sink.recording (s, [])).sink.2
  /-- A key with a backslash stays, whatever paths are given. -/
  kept : '\\' ∈ key.toList → ∀ given more map,
    loadIgnored t { options with ignored := given } = .ok more →
    TreeHas t root { options with ignored := given } more map → key ∈ map.keys
  /-- If the other keys can be read, the command can be made to end well without the key. -/
  run : (∀ other ∈ keys, other ∉ ignored → other ≠ key →
      (Digester.new options.config).ReadsKey t root other) →
    ((∃ value, LeavesOut t f root (options.ignoring value) key) ↔ '\\' ∉ key.toList)

theorem writings_key {key : String} (h : IsKey key) : Writings key where
  itself := normalize_eq_self h
  dressed := normalize_dressed h
  never := normalize_ne

theorem ignorable_key {t : FileTree} {root : Path} {options : TreeOptions}
    {ignored keys : List String} (f : Format) (hk : collectKeys t options.followLinks root = .ok keys)
    (hload : loadIgnored t options = .ok ignored) {key : String} (hkey : key ∈ keys) :
    Ignorable t f root options keys ignored key := by
  have hgrammar := isKey_of_collectKeys hk key hkey
  -- the options ignore one more path, which is written with dot and slashes
  obtain ⟨more, hmore, hmem⟩ := mem_loadIgnored_ignoring hload ("./" ++ key ++ "/")
  constructor
  case grammar => exact hgrammar
  case value =>
    constructor
    · rintro ⟨value, others, hothers, hignored⟩
      exact backslash_notMem_ignored hothers hignored
    · intro hback
      exact ⟨_, more, hmore, (hmem key).2 (.inl (normalize_dressed hgrammar hback).symm)⟩
  case untold =>
    intro given others _ hignored σ sink s htold
    have hlive := reported_live (d := Digester.new options.config) hk others sink s htold
    exact (mem_liveKeys.1 hlive).2 hignored
  case kept =>
    intro hback given others map hothers hhas
    have hcollect : collectKeys t { options with ignored := given }.followLinks root = .ok keys := hk
    exact kept_of_backslash hcollect hothers hhas hkey hback
  case run =>
    intro hreads
    constructor
    · rintro ⟨value, -, others, map, hothers, hhas, -, hmissing⟩ hback
      have hcollect : collectKeys t (options.ignoring value).followLinks root = .ok keys := hk
      exact hmissing (kept_of_backslash hcollect hothers hhas hkey hback)
    · intro hback
      rw [normalize_dressed hgrammar hback] at hmem
      have hcollect : collectKeys t (options.ignoring ("./" ++ key ++ "/")).followLinks root =
          .ok keys := hk
      refine ⟨_, leavesOut_of_reads hcollect hmore f ((hmem key).2 (.inl rfl)) ?_⟩
      intro other hother hnot
      rw [hmem, not_or] at hnot
      exact hreads other hother hnot.2 hnot.1

/-- For every key: it is brought into its own form exactly if it has no backslash and no white space
at its ends; without backslash it can always be written, and with a backslash it cannot. So a
command can be made to leave a key of its walk out exactly if the key has no backslash. -/
theorem ignorable_keys :
    (∀ key, IsKey key → Writings key) ∧
    ∀ (t : FileTree) (f : Format) (root : Path) (options : TreeOptions) (keys ignored : List String),
      collectKeys t options.followLinks root = .ok keys → loadIgnored t options = .ok ignored →
      ∀ key ∈ keys, Ignorable t f root options keys ignored key := by
  refine ⟨fun key h => writings_key h, ?_⟩
  intro t f root options keys ignored hk hload key hkey
  exact ignorable_key f hk hload hkey

/-- A directory with a file whose name has a backslash. -/
def backslashTree : FileTree :=
  .ofTable [([utf8 "d"], .directory), ([utf8 "d", utf8 "a\\b"], .file [1])]
    (by decide) (by decide) (by decide)

theorem ignorable_keys_sample :
    normalize "./d/" = "d" ∧
    (∃ value, LeavesOut backslashTree .machine "." (({} : TreeOptions).ignoring value) "d") ∧
    ¬∃ value, LeavesOut backslashTree .machine "." (({} : TreeOptions).ignoring value)
      "d/a\\b" := by
  have hkeys : collectKeys backslashTree false "." = .ok ["d", "d/a\\b"] := by decide +kernel
  have hreads : ∀ key ∈ ["d", "d/a\\b"],
      (Digester.new ({} : TreeOptions).config).ReadsKey backslashTree "." key := by
    have hsome : ∀ key ∈ ["d", "d/a\\b"], ((Digester.new ({} : TreeOptions).config).digestKey
        backslashTree "." key).toOption.isSome = true := by decide +kernel
    intro key hkey
    obtain ⟨digest, hdigest⟩ := Option.isSome_iff_exists.1 (hsome key hkey)
    exact ⟨digest, ok_of_toOption hdigest⟩
  obtain ⟨hwritten, hignorable⟩ := ignorable_keys
  have hall := hignorable backslashTree .machine "." {} _ [] hkeys rfl
  have hplain := hall "d" (by decide)
  have hback := hall "d/a\\b" (by decide)
  refine ⟨(hwritten "d" hplain.grammar).dressed (by decide), ?_, ?_⟩
  · exact (hplain.run fun other hother _ _ => hreads other hother).2 (by decide)
  · rw [hback.run fun other hother _ _ => hreads other hother]
    decide

end DirDigest
