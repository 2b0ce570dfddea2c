import DirDigest.Proofs.Checksum
import DirDigest.Proofs.Collecting
import DirDigest.Proofs.Difference
import DirDigest.Proofs.FileTree.Rewrite
import DirDigest.Proofs.KeyDigest

/-! # A file that is written over

* `PlainRoot`: a path that leads to a directory without links below it.
* `PlainRoot.collected`: the keys of a walk that ends well are those of all entries.
* `PlainRoot.rewrites`, `rewrites_collectKeys`: another content of a file leaves the keys alone.
* `rewrites_digestKey`, `rewrites_digestKey_file`: it changes the digest of the file, and no other.
* `rewrites_changesOnly`, `overwritten_detected`: the difference of the maps before and after is
  the change of that file.
-/

set_option autoImplicit false

namespace DirDigest

/-- A root path that leads to the directory at `l`, without links below it. -/
structure PlainRoot (t : FileTree) (l : Location) (root : Path) : Prop where
  resolves : t.resolve true root = .ok l
  plain : ∀ names target, t.node? (l ++ names) ≠ some (.link target)

/-- A tree without any links. -/
theorem plain_of_nodes {t : FileTree} (h : ∀ e ∈ t.nodes, ∀ target, e.2 ≠ .link target)
    (l : Location) (names : List Name) (target : Path) :
    t.node? (l ++ names) ≠ some (.link target) := by
  intro hnode
  by_cases hroot : l ++ names = []
  · rw [hroot] at hnode
    cases hnode
  · exact h _ ((t.mem_nodes_iff hroot).2 hnode) target rfl

/-! ## Keys -/

section Keys
variable {t : FileTree} {l : Location} {root : Path} {follow : Bool} {keys : List String}

theorem PlainRoot.entersNoLink (h : PlainRoot t l root) (follow : Bool) : t.EntersNoLink follow l :=
  fun _ => h.plain

/-- What is known of a root of which all keys were collected. -/
theorem PlainRoot.collected (h : PlainRoot t l root) (hk : collectKeys t follow root = .ok keys) :
    t.isDirectory l = true ∧ t.DirectoryPathsFit l root ∧
      (t.below l).map keyOf? = keys.map some := by
  obtain ⟨hcheck, hok⟩ := noFailure_of_collectKeys hk
  have hl := isDirectory_of_checkRoot h.resolves hcheck
  have hpaths := FileTree.directoryPathsFit_of_walk h.resolves hl hok
  exact ⟨hl, hpaths, (collectKeys_eq_ok h.resolves hl (h.entersNoLink follow) hpaths).1 hk⟩

end Keys

/-! ## Another content of a file -/

section Rewriting
variable {t t' : FileTree} {l : Location} {root : Path} {names : List Name} {first second : Bytes}
  {follow : Bool} {keys : List String} (h : PlainRoot t l root)
  (hw : t.Rewrites (l ++ names) first second t')
include h hw

theorem PlainRoot.rewrites : PlainRoot t' l root := by
  refine ⟨(hw.resolve true root).trans h.resolves, fun others target hnode => ?_⟩
  by_cases hothers : l ++ others = l ++ names
  · rw [hothers, hw.new] at hnode
    cases hnode
  · rw [hw.others _ hothers] at hnode
    exact h.plain others target hnode

theorem rewrites_collectKeys (hk : collectKeys t follow root = .ok keys) :
    collectKeys t' follow root = .ok keys := by
  obtain ⟨hl, hpaths, hkeys⟩ := h.collected hk
  have h' := h.rewrites hw
  have hl' : t'.isDirectory l = true := (hw.isDirectory l).trans hl
  have hpaths' : t'.DirectoryPathsFit l root := by
    intro others hd
    rw [hw.isDirectory] at hd
    exact hpaths others hd
  rw [collectKeys_eq_ok h'.resolves hl' (h'.entersNoLink follow) hpaths', hw.below]
  exact hkeys

/-- The file has another digest, unless its name is that of an archive. -/
theorem rewrites_digestKey_file (hne : names ≠ []) {key : String} (hkey : keyOf? names = some key)
    {d : Digester} (hplain : d.config.isArchiveName (root.extend names) = false) {digest : Digest}
    (hd : d.digestKey t root key = .ok digest) :
    digest = digestBytes first ∧ d.digestKey t' root key = .ok (digestBytes second) := by
  rw [digestKey_extend h.resolves hne hw.old nofun hkey] at hd
  rw [digestKey_extend (h.rewrites hw).resolves hne hw.new nofun hkey]
  by_cases hlimits : FileTree.WithinLimits root names
  · rw [if_pos hlimits, nodeDigest_file, digestFile_plain hplain] at hd
    rw [if_pos hlimits, nodeDigest_file, digestFile_plain hplain]
    exact ⟨(Except.ok.inj hd).symm, rfl⟩
  · rw [if_neg hlimits] at hd
    cases hd

/-- Every other entry keeps its digest. -/
theorem rewrites_digestKey {others : List Name} (hothers : others ∈ t.below l)
    (hne : others ≠ names) {key : String} (hkey : keyOf? others = some key) (d : Digester) :
    d.digestKey t' root key = d.digestKey t root key := by
  obtain ⟨hsome, node, hnode⟩ := FileTree.mem_below.1 hothers
  have hplace : l ++ others ≠ l ++ names := fun heq => hne (List.append_cancel_left heq)
  have hnode' : t'.node? (l ++ others) = some node := (hw.others _ hplace).trans hnode
  have hlink : ∀ target, node ≠ .link target := by
    rintro target rfl
    exact h.plain others target hnode
  rw [digestKey_extend h.resolves hsome hnode hlink hkey,
    digestKey_extend (h.rewrites hw).resolves hsome hnode' hlink hkey]

/-- A run over the tree with the other content ends well with another digest of the file only. -/
theorem rewrites_passes {σ : Type} {sink : StatusSink σ} {s : σ} (hne : names ≠ []) {key : String}
    (hkey : keyOf? names = some key) {d e : Digester} (hde : d.Agrees e)
    (hplain : d.config.isArchiveName (root.extend names) = false)
    (hk : collectKeys t d.config.followLinks root = .ok keys) {ignored : List String}
    {digest : String → Digest}
    (hp : Passes sink (fun k => d.digestKey t root k = .ok (digest k)) s (liveKeys ignored keys)) :
    Passes sink (fun k => e.digestKey t' root k =
      .ok (Function.update digest key (digestBytes second) k)) s (liveKeys ignored keys) := by
  refine hp.imp fun k hlive hd => ?_
  rw [← digestKey_congr hde]
  by_cases hsame : k = key
  · subst hsame
    rw [Function.update_self]
    exact (rewrites_digestKey_file h hw hne hkey hplain hd).2
  · rw [Function.update_of_ne hsame]
    have hmem : some k ∈ keys.map some := List.mem_map_of_mem (List.mem_filter.1 hlive).1
    rw [← (h.collected hk).2.2] at hmem
    obtain ⟨others, hothers, hother⟩ := List.mem_map.1 hmem
    have hnames : others ≠ names := by
      rintro rfl
      rw [hkey] at hother
      exact hsame (Option.some.inj hother).symm
    rw [rewrites_digestKey h hw hothers hnames hother d]
    exact hd

/-- A content with another digest is told as a change of the file, whatever else is in the tree. -/
theorem rewrites_changesOnly {σ : Type} {sink : StatusSink σ} {s : σ} {d e : Digester}
    (hde : d.Agrees e) (hplain : d.config.isArchiveName (root.extend names) = false)
    (hdiffers : digestBytes first ≠ digestBytes second) {ignored : List String} {map : DigestMap}
    (hrun : (d.digestDirectory t root ignored sink s).result = .ok map) :
    ∃ key, keyOf? names = some key ∧ (key ∉ ignored →
      ∃ map', (e.digestDirectory t' root ignored sink s).result = .ok map' ∧
        ChangesOnly map map' ⟨key, digestBytes first, digestBytes second⟩) := by
  obtain ⟨keys, digest, hk, hp, rfl⟩ := digestDirectory_eq_ok.1 hrun
  obtain ⟨hl, -, hkeys⟩ := h.collected hk
  have hne : names ≠ [] := by
    rintro rfl
    have hold := hw.old
    rw [List.append_nil, beq_iff_eq.1 hl] at hold
    cases hold
  have hmem : keyOf? names ∈ keys.map some :=
    hkeys ▸ List.mem_map_of_mem (FileTree.mem_below.2 ⟨hne, _, hw.old⟩)
  obtain ⟨key, hlisted, hkey⟩ := List.mem_map.1 hmem
  refine ⟨key, hkey.symm, fun hignored => ?_⟩
  have hlive : key ∈ liveKeys ignored keys := by
    simp [liveKeys, hlisted, hignored]
  have hp' := rewrites_passes h hw hne hkey.symm hde hplain hk hp
  have hk' := rewrites_collectKeys h hw hk
  rw [hde.links] at hk'
  refine ⟨_, digestDirectory_eq_ok.2 ⟨keys, _, hk', hp', rfl⟩, ?_⟩
  have hold := (rewrites_digestKey_file h hw hne hkey.symm hplain (hp.reads key hlive)).1
  refine changesOnly_of_get? ?_ ?_ hdiffers fun other hother => ?_
  · rw [get?_insertAll, if_pos hlive, hold]
  · rw [get?_insertAll, if_pos hlive, Function.update_self]
  · rw [get?_insertAll, get?_insertAll, Function.update_of_ne hother]

end Rewriting

/-- Writing over up to four consecutive bytes of a file changes the digest of its path, and nothing
else; the archives are left out, since they have other digests than their bytes. -/
theorem overwritten_detected :
    (∀ before old new after : Bytes, old.length = new.length → old.length ≤ 4 → old ≠ new →
      digestBytes (before ++ old ++ after) ≠ digestBytes (before ++ new ++ after)) ∧
    ∀ {σ : Type} (sink : StatusSink σ) (s : σ) {d e : Digester} {t t' : FileTree} {l : Location}
      {root : Path} {names : List Name} {first second : Bytes} (ignored : List String)
      {map : DigestMap}, d.Agrees e → PlainRoot t l root →
      t.Rewrites (l ++ names) first second t' → Overwritten first second →
      d.config.isArchiveName (root.extend names) = false →
      (d.digestDirectory t root ignored sink s).result = .ok map →
      ∃ key, keyOf? names = some key ∧ (key ∉ ignored →
        ∃ map', (e.digestDirectory t' root ignored sink s).result = .ok map' ∧
          ChangesOnly map map' ⟨key, digestBytes first, digestBytes second⟩) := by
  constructor
  · intro before old new after hlength hshort hne
    exact digestBytes_overwritten ⟨before, old, new, after, rfl, rfl, hlength, hshort, hne⟩
  · intro σ sink s d e t t' l root names first second ignored map hde h hw hover hplain hrun
    exact rewrites_changesOnly h hw hde hplain (digestBytes_overwritten hover) hrun

/-- A note in a directory. -/
def noteTree : FileTree :=
  .ofTable [([utf8 "d"], .directory), ([utf8 "d", utf8 "f"], .file [1, 2, 3])]
    (by decide) (by decide) (by decide)

theorem overwritten_detected_sample : ∃ (t' : FileTree) (map map' : DigestMap),
    noteTree.replace? [utf8 "d", utf8 "f"] (.file [1, 9, 3]) = some t' ∧
    ((Digester.new {}).digestDirectory noteTree "." [] .silent ()).result = .ok map ∧
    ((Digester.new {}).digestDirectory t' "." [] .silent ()).result = .ok map' ∧
    ChangesOnly map map' ⟨"d/f", digestBytes [1, 2, 3], digestBytes [1, 9, 3]⟩ := by
  have hreplace : (noteTree.replace? [utf8 "d", utf8 "f"] (.file [1, 9, 3])).isSome = true := rfl
  have hrun : ((Digester.new {}).digestDirectory noteTree "." []
      .silent ()).result.toOption.isSome = true := by decide +kernel
  have hname : (Digester.new {}).config.isArchiveName
      ((("." : String) : Path).extend [utf8 "d", utf8 "f"]) = false := by decide +kernel
  have hkey : keyOf? [utf8 "d", utf8 "f"] = some "d/f" := by decide +kernel
  obtain ⟨t', ht'⟩ := Option.isSome_iff_exists.1 hreplace
  obtain ⟨map, hmap⟩ := Option.isSome_iff_exists.1 hrun
  have hnodes : ∀ e ∈ noteTree.nodes, ∀ target, e.2 ≠ .link target := by
    simp [noteTree, FileTree.ofTable]
  have hplain : PlainRoot noteTree [] "." := ⟨rfl, plain_of_nodes hnodes []⟩
  have hrewrites : noteTree.Rewrites ([] ++ [utf8 "d", utf8 "f"]) [1, 2, 3] [1, 9, 3] t' :=
    FileTree.rewrites_replace rfl ht'
  have hover : Overwritten [1, 2, 3] [1, 9, 3] :=
    ⟨[1], [2], [9], [3], rfl, rfl, rfl, by decide, by decide⟩
  obtain ⟨key, hk, hchange⟩ := overwritten_detected.2 .silent () [] (.refl _) hplain hrewrites hover
    hname (ok_of_toOption hmap)
  obtain rfl : "d/f" = key := Option.some.inj (hkey.symm.trans hk)
  obtain ⟨map', hmap', hdiffers⟩ := hchange List.not_mem_nil
  exact ⟨t', map, map', ht', ok_of_toOption hmap, hmap', hdiffers⟩

end DirDigest
