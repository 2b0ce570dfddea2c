import DirDigest.Proofs.LinkWalk

/-! # Collected keys

* `allOrFirst_eq_error`: the first failure of a list stands behind values.
* `collectKeys_iff`: keys are collected where the root is a directory and no item is a failure.
* `noFailure_of_collectKeys`: the walk behind collected keys has met no failure.
* `Collected`, `collected`: the names that such a walk lists, with their keys.
* `collectKeys_nodup`: collected keys are distinct, whether links are followed or not.
* `collectKeys_error`: no failure of a walk is one of reading content.
-/

set_option autoImplicit false

namespace DirDigest

open FileTree (NoFailure)

section Roots
variable {t : FileTree} {p root : Path} {l : Location}

theorem stat_directory_iff :
    t.stat p = .ok .directory ↔ ∃ l, t.resolve true p = .ok l ∧ t.isDirectory l = true := by
  rw [FileTree.stat, FileTree.nodeAt_iff]
  refine exists_congr fun l => and_congr_right fun _ => ?_
  rw [FileTree.isDirectory, beq_iff_eq]

theorem checkRoot_eq_ok : checkRoot t root = .ok () ↔ t.stat root = .ok .directory := by
  unfold checkRoot
  cases t.stat root with
  | error cause =>
    dsimp only
    split
    · exact ⟨nofun, nofun⟩
    · exact ⟨nofun, nofun⟩
  | ok node =>
    cases node with
    | file content => exact ⟨nofun, nofun⟩
    | directory => exact iff_of_true rfl rfl
    | link target => exact ⟨nofun, nofun⟩

theorem isDirectory_of_checkRoot (hroot : t.resolve true root = .ok l)
    (h : checkRoot t root = .ok ()) : t.isDirectory l = true := by
  obtain ⟨place, hplace, hd⟩ := stat_directory_iff.1 (checkRoot_eq_ok.1 h)
  rw [hroot] at hplace
  cases hplace
  exact hd

end Roots

section Keys
variable {t : FileTree} {root : Path} {follow : Bool} {keys : List String}

theorem allOrFirst_eq_error {ε α : Type} {results : List (Except ε α)} {e : ε} :
    allOrFirst results = .error e ↔
      ∃ (values : List α) (after : List (Except ε α)),
        results = values.map .ok ++ .error e :: after := by
  constructor
  · intro h
    induction results with
    | nil => cases h
    | cons result rest ih =>
      cases result with
      | error first =>
        cases h
        exact ⟨[], rest, rfl⟩
      | ok value =>
        rw [allOrFirst] at h
        cases hrest : allOrFirst rest with
        | ok others =>
          rw [hrest] at h
          cases h
        | error later =>
          rw [hrest] at h
          cases h
          obtain ⟨values, after, hsplit⟩ := ih hrest
          exact ⟨value :: values, after, by rw [hsplit]; rfl⟩
  · rintro ⟨values, after, rfl⟩
    refine allOrFirst_error (fun result hresult => ?_) e after
    obtain ⟨value, -, rfl⟩ := List.mem_map.1 hresult
    exact ⟨value, rfl⟩

theorem mem_of_allOrFirst_error {ε α : Type} {results : List (Except ε α)} {e : ε}
    (h : allOrFirst results = .error e) : .error e ∈ results := by
  obtain ⟨values, after, rfl⟩ := allOrFirst_eq_error.1 h
  exact List.mem_append_right _ List.mem_cons_self

theorem collectKeys_iff : collectKeys t follow root = .ok keys ↔
    t.stat root = .ok .directory ∧ walkKeys t follow root = keys.map .ok := by
  rw [← checkRoot_eq_ok, ← allOrFirst_eq_ok, collectKeys]
  cases checkRoot t root with
  | error e => simp
  | ok u => simp

theorem noFailure_of_collectKeys (hk : collectKeys t follow root = .ok keys) :
    checkRoot t root = .ok () ∧ NoFailure (t.walk follow root) := by
  obtain ⟨hroot, hkeys⟩ := collectKeys_iff.1 hk
  refine ⟨checkRoot_eq_ok.2 hroot, fun item hitem => ?_⟩
  have hmem : WalkItem.key root item ∈ walkKeys t follow root := List.mem_map_of_mem hitem
  rw [hkeys] at hmem
  obtain ⟨key, -, hkey⟩ := List.mem_map.1 hmem
  cases item with
  | error fault => cases hkey
  | ok path => exact ⟨path, rfl⟩

theorem collectKeys_nodup (hk : collectKeys t follow root = .ok keys) : keys.Nodup := by
  obtain ⟨hroot, hkeys⟩ := collectKeys_iff.1 hk
  obtain ⟨l, hl, hd⟩ := stat_directory_iff.1 hroot
  have hwalk : FileTree.Walks t follow [⟨l, root⟩] (t.walk follow root) :=
    FileTree.walks_walk hl hd
  have hnodup := hwalk.keys_nodup
  rw [walkKeys] at hkeys
  rw [hkeys, List.filterMap_map] at hnodup
  have hall :
      keys.filterMap (Except.toOption ∘ (.ok : String → Except DigestError String)) = keys :=
    List.filterMap_some
  rwa [hall] at hnodup

/-- What is known of a walk whose keys were collected: the place of its root, and the names that it
lists, in strict order, with their keys. -/
structure Collected (t : FileTree) (follow : Bool) (root : Path) (keys : List String) (l : Location)
    (entries : List (List Name)) : Prop where
  resolves : t.resolve true root = .ok l
  directory : t.isDirectory l = true
  walked : t.walk follow root = entries.map fun names => .ok (root.extend names)
  sorted : entries.Pairwise (· < ·)
  named : ∀ names ∈ entries, names ≠ [] ∧ ∀ n ∈ names, IsName n
  keys : entries.map keyOf? = keys.map some

theorem collected (hk : collectKeys t follow root = .ok keys) :
    ∃ l entries, Collected t follow root keys l entries := by
  obtain ⟨hroot, hkeys⟩ := collectKeys_iff.1 hk
  obtain ⟨l, hl, hd⟩ := stat_directory_iff.1 hroot
  have hwalk : FileTree.Walks t follow [⟨l, root⟩] (t.walk follow root) :=
    FileTree.walks_walk hl hd
  obtain ⟨_, _, heq, entries, hitems, hsorted, hnamed⟩ :=
    hwalk.entries (noFailure_of_collectKeys hk).2
  cases heq
  rw [walkKeys, hitems, List.map_map] at hkeys
  have hkey : ∀ names ∈ entries,
      ((WalkItem.key root ∘ fun names => .ok (root.extend names)) names).toOption =
        keyOf? names := fun names hnames =>
    key_toOption root (hnamed names hnames).2 (hnamed names hnames).1
  exact ⟨l, entries, hl, hd, hitems, hsorted, hnamed, (map_ok_iff_map_some hkey).1 hkeys⟩

theorem Collected.key_names {l : Location} {entries : List (List Name)}
    (h : Collected t follow root keys l entries) {key : String} (hkey : key ∈ keys) :
    ∃ names ∈ entries, keyOf? names = some key := by
  have hmem : some key ∈ entries.map keyOf? := h.keys ▸ List.mem_map_of_mem hkey
  exact List.mem_map.1 hmem

theorem Collected.names_key {l : Location} {entries : List (List Name)}
    (h : Collected t follow root keys l entries) {names : List Name} (hnames : names ∈ entries) :
    ∃ key ∈ keys, keyOf? names = some key := by
  have hmem : keyOf? names ∈ keys.map some := h.keys ▸ List.mem_map_of_mem hnames
  obtain ⟨key, hkey, hname⟩ := List.mem_map.1 hmem
  exact ⟨key, hkey, hname.symm⟩

/-- The failures of a walk are not those of reading content. -/
theorem collectKeys_error {e : DigestError} (h : collectKeys t follow root = .error e) (path : Path)
    (cause : IoError) : e ≠ .read path cause := by
  rintro rfl
  unfold collectKeys at h
  split at h
  · rename_i e hcheck
    cases h
    unfold checkRoot at hcheck
    split at hcheck
    · cases hcheck
    · cases hcheck
    · split at hcheck
      · cases hcheck
      · cases hcheck
  · obtain ⟨item, -, hitem⟩ := List.mem_map.1 (mem_of_allOrFirst_error h)
    cases item with
    | error fault => cases hitem
    | ok below =>
      unfold WalkItem.key at hitem
      cases hkey : below.key? root with
      | some key => simp [hkey] at hitem
      | none => simp [hkey] at hitem

end Keys

end DirDigest
