import DirDigest.Proofs.DigestRun
import DirDigest.Proofs.Walk

/-! # The digest of a key below a root

* `RootedAt`: a path that leads to a directory, with all paths below it short enough.
* `nodeDigest`: the digest of a file or directory, without its place in a tree.
* `digestContent_eq_ok`, `digestKey_eq_ok`: which paths and keys have a digest.
* `digestKey_extend`, `digestKey_below`: the digest of a key is that of what the names of the key
  lead to.
-/

set_option autoImplicit false

namespace DirDigest

/-- A root path that leads to the directory at `l`, and below which no path is too long. -/
structure RootedAt (t : FileTree) (l : Location) (root : Path) : Prop where
  resolves : t.resolve true root = .ok l
  directory : t.isDirectory l = true
  short : ∀ names node, names ≠ [] → t.node? (l ++ names) = some node →
    (root.extend names).bytes.length < pathLimit

/-- The digest of a file or a directory. -/
def nodeDigest (c : Config) (p : Path) (buffer : ReadBuffer) : Node → Except IoError Digest
  | .file content => (digestFile c p content buffer).result
  | _ => .ok directoryDigest

theorem nodeDigest_file (c : Config) (p : Path) (buffer : ReadBuffer) (content : Bytes) :
    nodeDigest c p buffer (.file content) = (digestFile c p content buffer).result := rfl

/-- A path has a digest exactly if it leads to a file or directory that has one. -/
theorem digestContent_eq_ok {t : FileTree} {p : Path} {c : Config} {buffer : ReadBuffer}
    {digest : Digest} : (digestContent c t p buffer).result = .ok digest ↔
      ∃ node, t.stat p = .ok node ∧ nodeDigest c p buffer node = .ok digest := by
  have hfound : ∀ node, t.stat p = .ok node →
      (digestContent c t p buffer).result = nodeDigest c p buffer node := by
    intro node hs
    obtain ⟨there, hl⟩ := FileTree.lstat_of_stat hs
    simp only [digestContent, hl, hs]
    cases node with
    | file content => rfl
    | directory => rfl
    | link target => rfl
  constructor
  · intro h
    cases hs : t.stat p with
    | error cause =>
      simp only [digestContent, hs] at h
      cases hl : t.lstat p with
      | error cause =>
        rw [hl] at h
        cases h
      | ok there =>
        rw [hl] at h
        cases h
    | ok node => exact ⟨node, rfl, (hfound node hs).symm.trans h⟩
  · rintro ⟨node, hs, hd⟩
    exact (hfound node hs).trans hd

theorem digestKey_eq_ok {d : Digester} {t : FileTree} {root : Path} {key : String}
    {digest : Digest} : d.digestKey t root key = .ok digest ↔
      ∃ node, t.stat (root.join key) = .ok node ∧
        nodeDigest d.config (root.join key) d.buffer node = .ok digest := by
  rw [Digester.digestKey, Digester.digestPath, mapError_eq_ok, digestContent_eq_ok]

section Rooted
variable {t : FileTree} {l : Location} {root : Path}

theorem RootedAt.directoryPathsFit (h : RootedAt t l root) : t.DirectoryPathsFit l root := by
  intro names hd
  by_cases hne : names = []
  · subst hne
    exact (FileTree.resolve_eq_ok h.resolves).2.1
  · exact h.short names .directory hne (beq_iff_eq.1 hd)

/-- Where no link is entered, the keys of a walk do not depend on the path of the root. -/
theorem RootedAt.collectKeys (h : RootedAt t l root) {follow : Bool}
    (hlinks : t.EntersNoLink follow l) {keys : List String} :
    collectKeys t follow root = .ok keys ↔ (t.below l).map keyOf? = keys.map some :=
  collectKeys_eq_ok h.resolves h.directory hlinks h.directoryPathsFit

theorem RootedAt.key_names (h : RootedAt t l root) {follow : Bool}
    (hlinks : t.EntersNoLink follow l) {keys : List String}
    (hk : DirDigest.collectKeys t follow root = .ok keys) {key : String} (hkey : key ∈ keys) :
    ∃ names ∈ t.below l, keyOf? names = some key := by
  have hmem : some key ∈ (t.below l).map keyOf? :=
    (h.collectKeys hlinks).1 hk ▸ List.mem_map_of_mem hkey
  exact List.mem_map.1 hmem

theorem digestContent_of_node {t : FileTree} {p : Path} {node : Node} (hl : t.lstat p = .ok node)
    (hs : t.stat p = .ok node) (hlink : ∀ target, node ≠ .link target) (c : Config)
    (buffer : ReadBuffer) : (digestContent c t p buffer).result = nodeDigest c p buffer node := by
  simp only [digestContent, hl, hs]
  cases node with
  | file content => rfl
  | directory => rfl
  | link target => exact absurd rfl (hlink target)

theorem digestContent_unplaced {t : FileTree} {p : Path} {cause : IoError}
    (hl : t.lstat p = .error cause) (c : Config) (buffer : ReadBuffer) :
    (digestContent c t p buffer).result = .error cause := by
  simp only [digestContent, hl]

/-- The digest of a key is that of what its names lead to, if the system looks up its path. -/
theorem digestKey_extend (hroot : t.resolve true root = .ok l) {names : List Name}
    (hne : names ≠ []) {node : Node} (hnode : t.node? (l ++ names) = some node)
    (hlink : ∀ target, node ≠ .link target) {key : String} (hk : keyOf? names = some key)
    (d : Digester) :
    d.digestKey t root key =
      (if FileTree.WithinLimits root names then nodeDigest d.config (root.extend names) d.buffer node
        else .error (.system .nameTooLong)).mapError (.read (root.extend names)) := by
  have hvalid := FileTree.names_below hnode
  have hpath : root.join ⟨utf8 key⟩ = root.extend names := join_key root hvalid hne hk
  have hat : ∀ follow, t.nodeAt follow (root.extend names) =
      if FileTree.WithinLimits root names then .ok node else .error (.system .nameTooLong) :=
    fun follow => FileTree.nodeAt_extend hroot hne hnode fun _ => hlink
  rw [Digester.digestKey, hpath, Digester.digestPath]
  refine congrArg (Except.mapError _) ?_
  by_cases hlimits : FileTree.WithinLimits root names
  · rw [if_pos hlimits]
    have hfound : ∀ follow, t.nodeAt follow (root.extend names) = .ok node :=
      fun follow => (hat follow).trans (if_pos hlimits)
    exact digestContent_of_node (hfound false) (hfound true) hlink d.config d.buffer
  · rw [if_neg hlimits]
    exact digestContent_unplaced ((hat false).trans (if_neg hlimits)) d.config d.buffer

theorem digestKey_below (h : RootedAt t l root) {names : List Name} (hne : names ≠ []) {node : Node}
    (hnode : t.node? (l ++ names) = some node) (hlink : ∀ target, node ≠ .link target)
    {key : String} (hk : keyOf? names = some key) (d : Digester) :
    d.digestKey t root key =
      (if FileTree.shortNames names then nodeDigest d.config (root.extend names) d.buffer node
        else .error (.system .nameTooLong)).mapError (.read (root.extend names)) := by
  have hlength := h.short names node hne hnode
  rw [digestKey_extend h.resolves hne hnode hlink hk]
  by_cases hshort : FileTree.shortNames names = true
  · rw [if_pos hshort, if_pos ⟨hlength, hshort⟩]
  · rw [if_neg hshort, if_neg fun hw => hshort hw.2]

theorem readsKey_below (h : RootedAt t l root) {names : List Name} (hne : names ≠ []) {node : Node}
    (hnode : t.node? (l ++ names) = some node) (hlink : ∀ target, node ≠ .link target)
    {key : String} (hk : keyOf? names = some key) (hshort : FileTree.shortNames names = true)
    {d : Digester} {digest : Digest}
    (hd : nodeDigest d.config (root.extend names) d.buffer node = .ok digest) :
    d.ReadsKey t root key := by
  refine ⟨digest, ?_⟩
  rw [digestKey_below h hne hnode hlink hk, if_pos hshort, hd]
  rfl

end Rooted

end DirDigest
