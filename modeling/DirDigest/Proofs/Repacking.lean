import DirDigest.Proofs.Difference
import DirDigest.Proofs.KeyDigest
import DirDigest.Proofs.Zip.RoundTrip

/-! # Repacked and relocated trees

* `Repacks`: two archives with the same files in them.
* `SameBuild`: two directories, perhaps of different trees, with the same content up to repacking.
* `repacks_digest`: repacking keeps the digest of an archive.
* `sameBuild_keys`, `sameBuild_digestKey`: the keys and the digests below two such directories.
* `digestDirectory_repacked`: the maps of two such directories, however their roots are written.
-/

set_option autoImplicit false

namespace DirDigest

open Zip (Archive Entry EntryFault)

/-- Whether an archive has a digest. -/
def Zip.Archive.Digests (a : Archive) : Prop :=
  ∃ buffer : ReadBuffer, 0 < buffer.capacity ∧ ∃ d, (digestArchive a buffer).result = .ok d

/-- Whether two contents are archives with digests that hold the same files: the same pairs of a
name and a content, stored in any way and listed in any order, and any directories. -/
def Repacks (first second : Bytes) : Prop :=
  ∃ a b, Archive.ofBytes first = .ok a ∧ Archive.ofBytes second = .ok b ∧
    a.Digests ∧ b.Digests ∧ ∀ f, f ∈ a.files ↔ f ∈ b.files

/-- The same at one path of two builds: nothing, a directory, or a file with the same content or, if
the path names an archive, with a repacked one. -/
inductive SameNode (c : Config) (p : Path) : Option Node → Option Node → Prop
  | absent : SameNode c p none none
  | directory : SameNode c p (some .directory) (some .directory)
  | same (content : Bytes) : SameNode c p (some (.file content)) (some (.file content))
  | repacked {first second : Bytes} (name : c.isArchiveName p = true) (h : Repacks first second) :
    SameNode c p (some (.file first)) (some (.file second))

/-- Whether two directories have the same below them, at every path from there. There are no links
below them. -/
def SameBuild (c : Config) (t : FileTree) (l : Location) (t' : FileTree) (l' : Location) : Prop :=
  ∀ names, SameNode c ((⟨[]⟩ : Path).extend names) (t.node? (l ++ names)) (t'.node? (l' ++ names))

/-! ## Archives -/

theorem files_of_digests {a : Archive} (h : a.Digests) :
    (∀ e ∈ a.entries, a.Locates e) ∧
      ∃ files : List (String × Bytes), a.files = files.map fun f => (f.1, .ok f.2) := by
  obtain ⟨buffer, hb, hd⟩ := h
  obtain ⟨hl, hr⟩ := (digestArchive_isOk hb).1 hd
  refine ⟨hl, ?_⟩
  choose! content hcontent using hr
  refine ⟨(a.entries.filter fun e => !e.isDirectory).map fun e => (e.name, content e), ?_⟩
  rw [files_eq_map, List.map_map]
  refine List.map_congr_left fun e he => ?_
  rw [hcontent e ((fileEntries_perm a).mem_iff.2 he)]
  rfl

theorem repacks_digest {first second : Bytes} (h : Repacks first second) :
    ∃ a b, Archive.ofBytes first = .ok a ∧ Archive.ofBytes second = .ok b ∧
      ∀ buffer other : ReadBuffer, 0 < buffer.capacity → 0 < other.capacity →
        (digestArchive a buffer).result = (digestArchive b other).result := by
  obtain ⟨a, b, ha, hb, hda, hdb, hfiles⟩ := h
  refine ⟨a, b, ha, hb, fun buffer other hcap hcap' => ?_⟩
  obtain ⟨hla, files, hfa⟩ := files_of_digests hda
  have hna := Archive.names_nodup ha
  have hnb := Archive.names_nodup hb
  have hperm : b.files.Perm a.files :=
    (List.perm_ext_iff_of_nodup (.of_map _ (files_names_nodup hnb))
      (.of_map _ (files_names_nodup hna))).2 fun f => (hfiles f).symm
  rw [digestArchive_files hna hla (.of_eq hfa) hcap,
    digestArchive_files hnb (files_of_digests hdb).1 (hperm.trans (.of_eq hfa)) hcap']

/-- Archives that are built from the same files are repacked ones of each other. -/
theorem repacks_built {compress : Zip.Compressor} (hc : Zip.Compresses compress)
    {steps others : List Zip.BuildStep} {ms ms' : List Zip.Member}
    (h : Zip.members compress steps = .ok ms) (h' : Zip.members compress others = .ok ms')
    (hl : Zip.ClassicLimits ms) (hl' : Zip.ClassicLimits ms')
    (hp : (Zip.filesBy steps).Perm (Zip.filesBy others)) :
    Repacks (Zip.writeArchive ms) (Zip.writeArchive ms') := by
  have hbuffer : 0 < (⟨1, []⟩ : ReadBuffer).capacity := by decide
  refine ⟨Zip.builtArchive ms, Zip.builtArchive ms', Zip.ofBytes_built hc h hl,
    Zip.ofBytes_built hc h' hl', ⟨⟨1, []⟩, hbuffer, _, Zip.built_digest hc h hl (.refl _) hbuffer⟩,
    ⟨⟨1, []⟩, hbuffer, _, Zip.built_digest hc h' hl' (.refl _) hbuffer⟩, fun f => ?_⟩
  rw [Zip.built_files hc h, Zip.built_files hc h']
  exact (hp.map _).mem_iff

/-! ## Nodes -/

section Nodes
variable {c c' : Config} {p p' rel : Path} {buffer other : ReadBuffer}

theorem digestFile_repacked (hname : c.isArchiveName p = true) (hname' : c'.isArchiveName p' = true)
    (hcap : 0 < buffer.capacity) (hcap' : 0 < other.capacity) {first second : Bytes}
    (h : Repacks first second) :
    (digestFile c p first buffer).result = (digestFile c' p' second other).result := by
  obtain ⟨a, b, ha, hb, hdigest⟩ := repacks_digest h
  rw [digestFile_archive hname ha, digestFile_archive hname' hb]
  exact hdigest buffer other hcap hcap'

theorem nodeDigest_same (hname : c.isArchiveName p = c.isArchiveName rel)
    (hname' : c'.isArchiveName p' = c.isArchiveName rel) (hcap : 0 < buffer.capacity)
    (hcap' : 0 < other.capacity) {node node' : Node}
    (h : SameNode c rel (some node) (some node')) :
    nodeDigest c p buffer node = nodeDigest c' p' other node' := by
  cases h with
  | directory => rfl
  | same content =>
    have hroom : buffer.capacity = 0 ↔ other.capacity = 0 :=
      ⟨fun h => absurd h (Nat.ne_of_gt hcap), fun h => absurd h (Nat.ne_of_gt hcap')⟩
    exact digestFile_result_congr (hname.trans hname'.symm) hroom content
  | repacked harchive hrepacks =>
    exact digestFile_repacked (hname.trans harchive) (hname'.trans harchive) hcap hcap' hrepacks

theorem SameNode.both {second : Option Node} {node : Node}
    (h : SameNode c rel (some node) second) :
    (∀ target, node ≠ .link target) ∧
      ∃ node', second = some node' ∧ ∀ target, node' ≠ .link target := by
  cases h with
  | directory => exact ⟨nofun, .directory, rfl, nofun⟩
  | same content => exact ⟨nofun, .file content, rfl, nofun⟩
  | repacked harchive hrepacks => exact ⟨nofun, .file _, rfl, nofun⟩

theorem Repacks.symm {first second : Bytes} (h : Repacks first second) : Repacks second first := by
  obtain ⟨a, b, ha, hb, hda, hdb, hfiles⟩ := h
  exact ⟨b, a, hb, ha, hdb, hda, fun f => (hfiles f).symm⟩

theorem SameNode.symm {first second : Option Node} (h : SameNode c rel first second) :
    SameNode c rel second first := by
  cases h with
  | absent => exact .absent
  | directory => exact .directory
  | same content => exact .same content
  | repacked harchive hrepacks => exact .repacked harchive hrepacks.symm

end Nodes

/-! ## Trees -/

section Trees
variable {c : Config} {t t' : FileTree} {l l' : Location}

theorem SameBuild.symm (h : SameBuild c t l t' l') : SameBuild c t' l' t l :=
  fun names => (h names).symm

theorem SameBuild.entersNoLink (h : SameBuild c t l t' l') (follow : Bool) :
    t.EntersNoLink follow l := by
  intro _ names target hnode
  have hsame := h names
  rw [hnode] at hsame
  exact hsame.both.1 target rfl

theorem SameBuild.below (h : SameBuild c t l t' l') : t.below l = t'.below l' := by
  have hone : ∀ {t t' : FileTree} {l l' : Location}, SameBuild c t l t' l' → ∀ names,
      names ∈ t.below l → names ∈ t'.below l' := by
    intro t t' l l' h names hnames
    obtain ⟨hne, node, hnode⟩ := FileTree.mem_below.1 hnames
    have hsame := h names
    rw [hnode] at hsame
    obtain ⟨-, node', hnode', -⟩ := hsame.both
    exact FileTree.mem_below.2 ⟨hne, node', hnode'⟩
  exact FileTree.listing_eq (FileTree.listing_sorted _ _ _) fun names =>
    ⟨hone h names, hone h.symm names⟩

variable {root root' : Path}

theorem sameBuild_keys (h : SameBuild c t l t' l') (hr : RootedAt t l root)
    (hr' : RootedAt t' l' root') (follow : Bool) (keys : List String) :
    collectKeys t follow root = .ok keys ↔ collectKeys t' follow root' = .ok keys := by
  rw [hr.collectKeys (h.entersNoLink follow), hr'.collectKeys (h.symm.entersNoLink follow), h.below]

theorem sameBuild_digestKey {d e : Digester} (h : SameBuild d.config t l t' l')
    (hr : RootedAt t l root) (hr' : RootedAt t' l' root') (hde : d.Agrees e)
    (hcap : 0 < d.buffer.capacity) {names : List Name} (hnames : names ∈ t.below l) {key : String}
    (hk : keyOf? names = some key) (digest : Digest) :
    d.digestKey t root key = .ok digest ↔ e.digestKey t' root' key = .ok digest := by
  obtain ⟨hne, node, hnode⟩ := FileTree.mem_below.1 hnames
  have hsame := h names
  rw [hnode] at hsame
  obtain ⟨hlink, node', hnode', hlink'⟩ := hsame.both
  have hvalid := FileTree.names_below hnode
  have hcap' : 0 < e.buffer.capacity :=
    Nat.pos_of_ne_zero fun hzero => Nat.ne_of_gt hcap (hde.room.2 hzero)
  have hname := isArchiveName_extend root d.config ⟨[]⟩ hvalid hne
  have hname' : e.config.isArchiveName (root'.extend names) =
      d.config.isArchiveName ((⟨[]⟩ : Path).extend names) :=
    (isArchiveName_congr hde.extensions.symm _).trans
      (isArchiveName_extend root' d.config ⟨[]⟩ hvalid hne)
  rw [hnode'] at hsame
  rw [digestKey_below hr hne hnode hlink hk, digestKey_below hr' hne hnode' hlink' hk,
    mapError_eq_ok, mapError_eq_ok, nodeDigest_same hname hname' hcap hcap' hsame]

theorem sameBuild_run {d e : Digester} (h : SameBuild d.config t l t' l') (hr : RootedAt t l root)
    (hr' : RootedAt t' l' root') (hde : d.Agrees e) (hcap : 0 < d.buffer.capacity)
    (ignored : List String) (map : DigestMap) :
    (d.digestDirectory t root ignored .silent ()).result = .ok map ↔
      (e.digestDirectory t' root' ignored .silent ()).result = .ok map := by
  rw [silent_eq_ok, silent_eq_ok]
  refine exists_congr fun keys => exists_congr fun digest => ?_
  rw [← hde.links, ← sameBuild_keys h hr hr' d.config.followLinks keys]
  refine and_congr_right fun hk => and_congr_left fun _ => forall₂_congr fun key hkey => ?_
  have hmem : key ∈ keys := (List.mem_filter.1 hkey).1
  obtain ⟨names, hnames, hname⟩ := hr.key_names (h.entersNoLink _) hk hmem
  exact sameBuild_digestKey h hr hr' hde hcap hnames hname (digest key)

end Trees

/-- Two builds with the same content up to repacking have the same map, wherever they are and
however their roots are written: a run that nobody stops ends well for both or for neither, and the
two maps do not differ. -/
theorem digestDirectory_repacked {d e : Digester} (hde : d.Agrees e) (hcap : 0 < d.buffer.capacity)
    {t t' : FileTree} {l l' : Location} {root root' : Path} (hr : RootedAt t l root)
    (hr' : RootedAt t' l' root') (h : SameBuild d.config t l t' l') (ignored : List String) :
    ((∃ map, (d.digestDirectory t root ignored .silent ()).result = .ok map) ↔
      ∃ map, (e.digestDirectory t' root' ignored .silent ()).result = .ok map) ∧
    ∀ map map', (d.digestDirectory t root ignored .silent ()).result = .ok map →
      (e.digestDirectory t' root' ignored .silent ()).result = .ok map' →
      map = map' ∧ (difference map map').isEmpty = true := by
  have hrun := sameBuild_run h hr hr' hde hcap ignored
  refine ⟨exists_congr hrun, fun map map' hmap hmap' => ?_⟩
  have heq : map = map' := by
    rw [hrun map, hmap'] at hmap
    exact (Except.ok.inj hmap).symm
  subst heq
  exact ⟨rfl, difference_self map⟩

/-! ## A sample -/

theorem sameBuild_of_tables {c : Config} {t t' : FileTree} {l l' : Location}
    (hl : t.isDirectory l = true) (hl' : t'.isDirectory l' = true)
    (h : ∀ e ∈ t.nodes, ∀ names ∈ afterLeading? l e.1,
      SameNode c ((⟨[]⟩ : Path).extend names) (some e.2) (t'.node? (l' ++ names)))
    (h' : ∀ e ∈ t'.nodes, ∀ names ∈ afterLeading? l' e.1,
      SameNode c ((⟨[]⟩ : Path).extend names) (t.node? (l ++ names)) (some e.2)) :
    SameBuild c t l t' l' := by
  intro names
  by_cases hne : names = []
  · subst hne
    rw [List.append_nil, List.append_nil, beq_iff_eq.1 hl, beq_iff_eq.1 hl']
    exact .directory
  · cases hnode : t.node? (l ++ names) with
    | some node =>
      obtain ⟨hmem, hnames⟩ := FileTree.mem_nodes_below hne hnode
      exact h _ hmem names hnames
    | none =>
      cases hnode' : t'.node? (l' ++ names) with
      | none => exact .absent
      | some node =>
        obtain ⟨hmem, hnames⟩ := FileTree.mem_nodes_below hne hnode'
        exact hnode ▸ h' _ hmem names hnames

/-- The files of `Zip.sampleMembers` in another order, neither compressed, and another directory. -/
def repackedMembers : List Zip.Member :=
  [⟨"e/", [], [], { mode := 0o755 }, Zip.directoryBits⟩, ⟨"a", [1], [1], {}, Zip.fileBits⟩,
   ⟨"b", [2, 3], [2, 3], {}, Zip.fileBits⟩]

/-- A build at the root of a tree: an archive in a directory, and a file. -/
def sampleTree : FileTree :=
  .ofTable [([utf8 "a"], .directory),
      ([utf8 "a", utf8 "x.zip"], .file (Zip.writeArchive Zip.sampleMembers)),
      ([utf8 "b"], .file [7])]
    (by decide) (by decide) (by decide)

/-- The same build below the root of a tree, repacked, and a link to it. -/
def repackedTree : FileTree :=
  .ofTable [([utf8 "r"], .directory), ([utf8 "r", utf8 "b"], .file [7]),
      ([utf8 "r", utf8 "a"], .directory),
      ([utf8 "r", utf8 "a", utf8 "x.zip"], .file (Zip.writeArchive repackedMembers)),
      ([utf8 "s"], .link "r")]
    (by decide) (by decide) (by decide)

theorem sampleTree_root : RootedAt sampleTree [] "." where
  resolves := rfl
  directory := rfl
  short names node hne hnode := by
    have h : ∀ e ∈ sampleTree.nodes, ∀ names ∈ afterLeading? [] e.1,
        ((("." : String) : Path).extend names).bytes.length < pathLimit := by decide
    obtain ⟨hmem, hnames⟩ := FileTree.mem_nodes_below hne hnode
    exact h _ hmem names hnames

theorem repackedTree_root : RootedAt repackedTree [utf8 "r"] "./s/" where
  resolves := rfl
  directory := rfl
  short names node hne hnode := by
    have h : ∀ e ∈ repackedTree.nodes, ∀ names ∈ afterLeading? [utf8 "r"] e.1,
        ((("./s/" : String) : Path).extend names).bytes.length < pathLimit := by decide
    obtain ⟨hmem, hnames⟩ := FileTree.mem_nodes_below hne hnode
    exact h _ hmem names hnames

theorem sample_repacks :
    Repacks (Zip.writeArchive Zip.sampleMembers) (Zip.writeArchive repackedMembers) := by
  have hmembers : Zip.members Deflate.deflate
      [.directory "e", .file "a" [1], .file "b" [2, 3]] = .ok repackedMembers := rfl
  have hlimits : Zip.ClassicLimits repackedMembers :=
    Zip.classicLimits_of_length (by decide) (by decide) (by decide +kernel)
  exact repacks_built Zip.deflate_compresses Zip.sample_members hmembers Zip.sample_limits hlimits
    (.swap _ _ _)

theorem sample_sameBuild :
    SameBuild { bufferSize := 1 } sampleTree [] repackedTree [utf8 "r"] := by
  have hname : Config.isArchiveName { bufferSize := 1 }
      ((⟨[]⟩ : Path).extend [utf8 "a", utf8 "x.zip"]) = true := by decide +kernel
  refine sameBuild_of_tables rfl rfl (fun e he names hnames => ?_) fun e he names hnames => ?_
  · rcases List.mem_cons.1 he with rfl | he
    · obtain rfl : [utf8 "a"] = names := Option.some.inj hnames
      exact .directory
    · rcases List.mem_cons.1 he with rfl | he
      · obtain rfl : [utf8 "a", utf8 "x.zip"] = names := Option.some.inj hnames
        exact .repacked hname sample_repacks
      · obtain rfl := List.mem_singleton.1 he
        obtain rfl : [utf8 "b"] = names := Option.some.inj hnames
        exact .same [7]
  · rcases List.mem_cons.1 he with rfl | he
    · obtain rfl : [] = names := Option.some.inj hnames
      exact .directory
    · rcases List.mem_cons.1 he with rfl | he
      · obtain rfl : [utf8 "b"] = names := Option.some.inj hnames
        exact .same [7]
      · rcases List.mem_cons.1 he with rfl | he
        · obtain rfl : [utf8 "a"] = names := Option.some.inj hnames
          exact .directory
        · rcases List.mem_cons.1 he with rfl | he
          · obtain rfl : [utf8 "a", utf8 "x.zip"] = names := Option.some.inj hnames
            exact .repacked hname sample_repacks
          · obtain rfl := List.mem_singleton.1 he
            cases hnames

theorem sample_keys :
    (sampleTree.below []).map keyOf? = ["a", "a/x.zip", "b"].map some := by
  have hsorted : (sampleTree.nodes.map Prod.fst).Pairwise (· < ·) := by decide
  rw [FileTree.below_root hsorted]
  decide +kernel

/-- The digester of the sample run over `sampleTree`, which reads one byte at a time. -/
def sampleDigester : Digester := .new { bufferSize := 1 }

theorem sample_reads :
    ∀ key ∈ ["a", "a/x.zip", "b"], sampleDigester.ReadsKey sampleTree "." key := by
  have hbuffer : 0 < sampleDigester.buffer.capacity := by decide
  intro key hkey
  rcases List.mem_cons.1 hkey with rfl | hkey
  · have hnames : keyOf? [utf8 "a"] = some "a" := by decide +kernel
    have hnode : sampleTree.node? ([] ++ [utf8 "a"]) = some .directory := rfl
    exact readsKey_below sampleTree_root (by decide) hnode nofun hnames rfl rfl
  · rcases List.mem_cons.1 hkey with rfl | hkey
    · have hnames : keyOf? [utf8 "a", utf8 "x.zip"] = some "a/x.zip" := by decide +kernel
      have hnode : sampleTree.node? ([] ++ [utf8 "a", utf8 "x.zip"]) =
          some (.file (Zip.writeArchive Zip.sampleMembers)) := rfl
      have hname : sampleDigester.config.isArchiveName
          ((("." : String) : Path).extend [utf8 "a", utf8 "x.zip"]) = true := by decide +kernel
      have hopen := Zip.ofBytes_built Zip.deflate_compresses Zip.sample_members Zip.sample_limits
      have hdigest := Zip.built_digest Zip.deflate_compresses Zip.sample_members Zip.sample_limits
        (.refl _) hbuffer
      exact readsKey_below sampleTree_root (by decide) hnode nofun hnames rfl
        ((nodeDigest_file _ _ _ _).trans ((digestFile_archive hname hopen _).trans hdigest))
    · obtain rfl := List.mem_singleton.1 hkey
      have hnames : keyOf? [utf8 "b"] = some "b" := by decide +kernel
      have hnode : sampleTree.node? ([] ++ [utf8 "b"]) = some (.file [7]) := rfl
      have hname : sampleDigester.config.isArchiveName
          ((("." : String) : Path).extend [utf8 "b"]) = false := by decide +kernel
      exact readsKey_below sampleTree_root (by decide) hnode nofun hnames rfl
        (digestFile_plain hname [7] _)

theorem sample_run : ∃ map : DigestMap,
    (sampleDigester.digestDirectory sampleTree "." [] .silent ()).result = .ok map := by
  have hread := sample_reads
  choose! digest hdigest using hread
  have hkeys := (sampleTree_root.collectKeys (sample_sameBuild.entersNoLink false)).2 sample_keys
  exact ⟨_, silent_eq_ok.2 ⟨["a", "a/x.zip", "b"], digest, hkeys, hdigest, rfl⟩⟩

/-- The two sample builds, read with buffers of two sizes. -/
theorem digestDirectory_repacked_sample : ∃ map : DigestMap,
    (sampleDigester.digestDirectory sampleTree "." [] .silent ()).result = .ok map ∧
    ((Digester.new {}).digestDirectory repackedTree "./s/" [] .silent ()).result = .ok map := by
  have hagrees : sampleDigester.Agrees (.new {}) := new_agrees rfl rfl
  obtain ⟨hboth, hsame⟩ := digestDirectory_repacked hagrees (new_capacity _) sampleTree_root
    repackedTree_root sample_sameBuild []
  obtain ⟨map, hmap⟩ := sample_run
  obtain ⟨map', hmap'⟩ := hboth.1 ⟨map, hmap⟩
  exact ⟨map, hmap, (hsame map map' hmap hmap').1 ▸ hmap'⟩

end DirDigest
