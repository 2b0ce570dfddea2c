import DirDigest.Proofs.KeyDigest

/-! # What a walk that follows no links lists

* `FileTree.Reaches`: names that lead from a directory to an entry, through real directories only.
* `entryItem`: the item of an entry, its key or the failure that tells its path.
* `walkKeys_eq`: the items of a walk are those of the entries, in strict order of their names.
* `ListsEntries`, `walkKeys_listsEntries`: such a walk lists every entry once and in order, and its
  keys lead back to the entries.
-/

set_option autoImplicit false

namespace DirDigest

open FileTree (shortNames)

/-! ## Entries -/

/-- Whether names lead from a directory to an entry, through real directories only: what is behind a
link is not reached. -/
inductive FileTree.Reaches (t : FileTree) : Location → List Name → Node → Prop
  | last {l : Location} {n : Name} {node : Node} (h : (n, node) ∈ t.children l) :
    Reaches t l [n] node
  | through {l : Location} {n : Name} {names : List Name} {node : Node}
    (h : (n, .directory) ∈ t.children l) (hrest : Reaches t (l ++ [n]) names node) :
    Reaches t l (n :: names) node

theorem FileTree.reaches_iff {t : FileTree} {l : Location} {names : List Name} {node : Node} :
    t.Reaches l names node ↔ names ≠ [] ∧ t.node? (l ++ names) = some node := by
  constructor
  · intro h
    induction h with
    | last h => exact ⟨List.cons_ne_nil _ _, mem_children.1 h⟩
    | through h hrest ih =>
      rw [← List.append_cons] at ih
      exact ⟨List.cons_ne_nil _ _, ih.2⟩
  · rintro ⟨hne, hnode⟩
    induction names generalizing l with
    | nil => exact absurd rfl hne
    | cons n rest ih =>
      by_cases hrest : rest = []
      · subst hrest
        exact .last (mem_children.2 hnode)
      · rw [List.append_cons] at hnode
        have hd : t.node? (l ++ [n]) = some .directory :=
          beq_iff_eq.1 (isDirectory_of_below hrest hnode)
        exact .through (mem_children.2 hd) (ih hrest hnode)

/-! ## Items -/

/-- The item of an entry: the names from the root joined by slashes if all of them are text, and
otherwise the failure that tells its path. -/
def entryItem (root : Path) (names : List Name) : Except DigestError String :=
  match keyOf? names with
  | some key => .ok key
  | none => .error (.invalidPath (root.extend names))

section Items
variable {t : FileTree} {l : Location} {root : Path} {names others : List Name}

theorem key_extend (root : Path) (h : ∀ n ∈ names, IsName n) (hne : names ≠ []) :
    WalkItem.key root (.ok (root.extend names)) = entryItem root names := by
  have hpath := key?_extend root h hne
  cases hk : keyOf? names with
  | some key => simp [WalkItem.key, entryItem, hpath, hk]
  | none => simp [WalkItem.key, entryItem, hpath, hk]

theorem entryItem_eq_ok {key : String} :
    entryItem root names = .ok key ↔ keyOf? names = some key := by
  unfold entryItem
  cases keyOf? names with
  | some k => simp
  | none => simp

/-- Different entries have different items. -/
theorem entryItem_injective (h : ∀ n ∈ names, IsName n) (hne : names ≠ [])
    (h' : ∀ n ∈ others, IsName n) (hne' : others ≠ [])
    (heq : entryItem root names = entryItem root others) : names = others := by
  cases hk : keyOf? names with
  | some key =>
    have hitem : entryItem root names = .ok key := entryItem_eq_ok.2 hk
    have hother : keyOf? others = some key := entryItem_eq_ok.1 (heq ▸ hitem)
    exact keyOf?_injective h hne h' hne' hk hother
  | none =>
    cases hk' : keyOf? others with
    | some key =>
      rw [entryItem_eq_ok.2 hk', entryItem_eq_ok, hk] at heq
      cases heq
    | none =>
      simp only [entryItem, hk, hk'] at heq
      have hpaths : root.extend names = root.extend others := by injection heq with h; injection h
      exact extend_injective root h h' hpaths

theorem below_names (h : names ∈ t.below l) : names ≠ [] ∧ ∀ n ∈ names, IsName n := by
  obtain ⟨hne, node, hnode⟩ := FileTree.mem_below.1 h
  exact ⟨hne, FileTree.names_below hnode⟩

theorem walkKeys_eq (h : RootedAt t l root) {follow : Bool} (hlinks : t.EntersNoLink follow l) :
    walkKeys t follow root = (t.below l).map (entryItem root) := by
  rw [walkKeys, FileTree.walk_eq_below h.resolves h.directory hlinks h.directoryPathsFit,
    List.map_map]
  refine List.map_congr_left fun names hnames => ?_
  obtain ⟨hne, hvalid⟩ := below_names hnames
  exact key_extend root hvalid hne

theorem entryItems_nodup (t : FileTree) (l : Location) (root : Path) :
    ((t.below l).map (entryItem root)).Nodup := by
  have hnodup : (t.below l).Nodup := by
    refine (FileTree.listing_sorted t t.wayBound l).imp fun {a b} hlt heq => ?_
    rw [heq] at hlt
    exact List.lt_irrefl b hlt
  refine hnodup.map_on fun names hnames others hothers heq => ?_
  obtain ⟨hne, hvalid⟩ := below_names hnames
  obtain ⟨hne', hvalid'⟩ := below_names hothers
  exact entryItem_injective hvalid hne hvalid' hne' heq

end Items

/-! ## Walks -/

/-- What a walk from `root`, the path of the directory at `l`, lists without following links, told
by the names on the way to each entry. -/
structure ListsEntries (t : FileTree) (l : Location) (root : Path) (entries : List (List Name)) :
    Prop where
  /-- The entries are those below the root that are reached through real directories. -/
  complete : ∀ names, names ∈ entries ↔ ∃ node, t.Reaches l names node
  /-- They are in strict order, name by name and each name by bytes. -/
  sorted : entries.Pairwise (· < ·)
  /-- Each of them has one item. -/
  items : walkKeys t false root = entries.map (entryItem root)
  distinct : (walkKeys t false root).Nodup
  /-- The key of an entry leads from the root to that entry and to nothing else. -/
  places : ∀ names ∈ entries, ∀ key, keyOf? names = some key → shortNames names = true →
    t.resolve false (root.join key) = .ok (l ++ names)
  /-- There are keys for all entries exactly if no item is a failure. -/
  collected : ∀ keys, collectKeys t false root = .ok keys ↔ walkKeys t false root = keys.map .ok
  /-- Otherwise the first failure is that of the walk. -/
  failed : ∀ before e after, walkKeys t false root = before ++ .error e :: after →
    (∀ item ∈ before, ∃ key, item = .ok key) → collectKeys t false root = .error e

/-- For every root that leads to a directory, directly or through links. -/
theorem walkKeys_listsEntries {t : FileTree} {l : Location} {root : Path} (h : RootedAt t l root) :
    ListsEntries t l root (t.below l) := by
  have hlinks : t.EntersNoLink false l := fun hf => absurd hf Bool.false_ne_true
  have hitems := walkKeys_eq h hlinks
  have hcollect : collectKeys t false root = allOrFirst (walkKeys t false root) := by
    simp only [collectKeys, checkRoot_ok h.resolves h.directory]
  constructor
  · intro names
    rw [FileTree.mem_below]
    simp only [FileTree.reaches_iff, exists_and_left]
  · exact FileTree.listing_sorted t t.wayBound l
  · exact hitems
  · rw [hitems]
    exact entryItems_nodup t l root
  · intro names hnames key hk hshort
    obtain ⟨hne, node, hnode⟩ := FileTree.mem_below.1 hnames
    have hjoin : root.join ⟨utf8 key⟩ = root.extend names :=
      join_key root (FileTree.names_below hnode) hne hk
    have hlimits : FileTree.WithinLimits root names := ⟨h.short names node hne hnode, hshort⟩
    have hunfollowed : false = true → ∀ target, node ≠ .link target :=
      fun hf => absurd hf Bool.false_ne_true
    rw [hjoin, FileTree.resolve_extend h.resolves hne hnode hunfollowed, if_pos hlimits]
  · intro keys
    rw [hcollect, allOrFirst_eq_ok]
  · intro before e after hsplit hbefore
    rw [hcollect, hsplit]
    exact allOrFirst_error hbefore e after

/-- A tree with a link to its root, a name that is no text, and a name that comes before the entries
of a directory if joined names are compared by bytes. -/
def orderedTree : FileTree :=
  .ofTable [([utf8 "a"], .directory), ([utf8 "a", utf8 "x"], .file [1]), ([utf8 "a-b"], .file []),
      ([utf8 "s"], .link "/"), ([[0xFF]], .file [])]
    (by decide) (by decide) (by decide)

theorem orderedTree_root : RootedAt orderedTree [] "./s/" where
  resolves := rfl
  directory := rfl
  short names node hne hnode := by
    have h : ∀ e ∈ orderedTree.nodes, ∀ names ∈ afterLeading? [] e.1,
        ((("./s/" : String) : Path).extend names).bytes.length < pathLimit := by decide
    obtain ⟨hmem, hnames⟩ := FileTree.mem_nodes_below hne hnode
    exact h _ hmem names hnames

theorem walkKeys_listsEntries_sample :
    walkKeys orderedTree false "./s/" =
      [.ok "a", .ok "a/x", .ok "a-b", .ok "s", .error (.invalidPath ⟨utf8 "./s/" ++ [0xFF]⟩)] ∧
    orderedTree.resolve false (("./s/" : Path).join "a/x") = .ok [utf8 "a", utf8 "x"] := by
  have hlists := walkKeys_listsEntries orderedTree_root
  have hsorted : (orderedTree.nodes.map Prod.fst).Pairwise (· < ·) := by decide
  rw [FileTree.below_root hsorted] at hlists
  have hkey : keyOf? [utf8 "a", utf8 "x"] = some "a/x" := by decide +kernel
  refine ⟨hlists.items.trans ?_, hlists.places [utf8 "a", utf8 "x"] ?_ "a/x" hkey rfl⟩
  · decide +kernel
  · decide

end DirDigest
