import DirDigest.Proofs.Collecting
import DirDigest.Proofs.FileTree.LinkCopy
import DirDigest.Proofs.KeyDigest
import DirDigest.Proofs.PathOutcome

/-! # A link digested as a copy

* `Continues`: the places of the directories that a walk reads are those where their paths lead on.
* `CopiesLink.encounter`, `CopiesLink.walks`: a walk without failures meets the same entries and
  lists the same paths where a link is replaced by a file of its content.
* `copiesLink_collectKeys`, `copiesLink_digestKey`: the same keys are collected, with the same
  digests.
* `link_as_copy`: a run that ends well has the same map after the replacement.
-/

set_option autoImplicit false

namespace DirDigest.FileTree

variable {t t' : FileTree}

/-! ## Places of directories -/

/-- Whether a path, where it is continued and leads somewhere, leads on from a place. -/
def Continues (t : FileTree) (p : Path) (l : Location) : Prop :=
  ∀ more dest, more ≠ [] →
    t.resolveFrom true maxLinks (start t.home p) (p.steps ++ more) = .ok dest →
    ∃ left, t.resolveFrom true left l more = .ok dest

theorem continues_of_resolve {p : Path} {l : Location} (h : t.resolve true p = .ok l) :
    t.Continues p l := by
  obtain ⟨left, hleft⟩ := resolveFrom_steps (resolve_iff.1 h).2
  intro more dest hmore hdest
  rw [hleft true more hmore] at hdest
  exact ⟨left, hdest⟩

theorem Continues.child {p : Path} {l : Location} {n : Name} {child : Node}
    (h : t.Continues p l) (hnode : t.node? (l ++ [n]) = some child) {dest : Location}
    (hdest : t.resolve true (p.join ⟨n⟩) = .ok dest) :
    ∃ left, t.resolveFrom true left l [n] = .ok dest := by
  have hn : IsName n := names_below hnode n List.mem_cons_self
  have hsteps : segments (p.join ⟨n⟩) = p.steps ++ [n] :=
    segments_extend p (List.forall_mem_singleton.2 hn) (List.cons_ne_nil n [])
  have hfrom := (resolve_iff.1 hdest).2
  rw [hsteps, start, isAbsolute_join p hn.pathName, ← start] at hfrom
  exact h [n] dest (List.cons_ne_nil n []) hfrom

theorem Continues.directory {p : Path} {l : Location} {n : Name} (h : t.Continues p l)
    (hnode : t.node? (l ++ [n]) = some .directory) : t.Continues (p.join ⟨n⟩) (l ++ [n]) := by
  have hn : IsName n := names_below hnode n List.mem_cons_self
  intro more dest hmore hdest
  rw [start, isAbsolute_join p hn.pathName, ← start, steps_join p hn.pathName,
    List.append_assoc] at hdest
  obtain ⟨left, hleft⟩ := h ([n] ++ more) dest (List.cons_ne_nil n more) hdest
  rw [List.singleton_append] at hleft
  have hplain : ∀ target, Node.directory ≠ .link target := by simp
  have hadvance := advance_entry hnode hplain true more
  by_cases hlong : maxNameLength < n.length
  · rw [if_pos hlong] at hadvance
    rw [resolveFrom_error hadvance] at hleft
    cases hleft
  · rw [if_neg hlong] at hadvance
    rw [resolveFrom_congr hadvance] at hleft
    exact ⟨left, hleft⟩

theorem Continues.entered {follow : Bool} {here next : Ancestor} {above : List Ancestor}
    (h : t.Continues here.path here.location) {e : Name × Node}
    (he : e ∈ t.children here.location)
    (hnext : (t.encounter follow here above e).entered = some next) :
    t.Continues next.path next.location := by
  obtain ⟨hpath, -, ⟨hnode, hlocation⟩ | ⟨-, hlink, -⟩⟩ := encounter_enters he hnext
  · rw [hpath, hlocation]
    exact h.directory hnode
  · rw [hpath]
    exact continues_of_resolve hlink.resolves

/-! ## Walks -/

/-- What stands behind the entry of a directory that has the name of a given entry. -/
def behindName (t : FileTree) (l : Location) (within : Name × Node → List WalkItem)
    (e : Name × Node) : List WalkItem :=
  (t.node? (l ++ [e.1])).elim [] fun node => within (e.1, node)

namespace CopiesLink
variable {base : Location} {n : Name} {target : Path} {content : Bytes}
  (h : t.CopiesLink base n target content t') {follow : Bool}
include h

theorem leads_to_file {p : Path} {l : Location} (hcontinues : t.Continues p base)
    (hl : t.resolve true (p.join ⟨n⟩) = .ok l) : t.isDirectory l = false := by
  obtain ⟨left, hleft⟩ := hcontinues.child h.link hl
  have hadvance := advance_link h.link true []
  by_cases hlong : maxNameLength < n.length
  · rw [if_pos hlong] at hadvance
    rw [resolveFrom_error hadvance] at hleft
    cases hleft
  · rw [if_neg hlong, if_pos (.inr rfl)] at hadvance
    obtain ⟨fewer, -, hfewer⟩ := resolveFrom_through hadvance hleft
    obtain ⟨-, hfile⟩ := h.ends_at_link (.inr rfl) hfewer
    simp [FileTree.isDirectory, hfile]

theorem encounter {here : Ancestor} {above : List Ancestor} {e : Name × Node} {path : Path}
    (he : e ∈ t.children here.location) (hcontinues : t.Continues here.path here.location)
    (hlisted : (t.encounter follow here above e).item = .ok path) :
    t'.encounter follow here above (entry base n content here.location e) =
      t.encounter follow here above e := by
  obtain ⟨m, node⟩ := e
  have hnode := mem_children.1 he
  by_cases hplace : here.location ++ [m] = base ++ [n]
  · -- the link itself, which leads to a file, has become a file
    obtain ⟨hbase, hname⟩ := List.append_inj' hplace rfl
    obtain rfl : m = n := (List.cons.inj hname).1
    obtain rfl : node = .link target := by
      rw [hplace, h.link] at hnode
      exact (Option.some.inj hnode).symm
    rw [entry, if_pos hplace]
    cases follow with
    | false => rfl
    | true =>
      cases hr : t.resolve true (here.path.join ⟨m⟩) with
      | error cause => simp [FileTree.encounter, hr] at hlisted
      | ok l =>
        have hd := h.leads_to_file (hbase ▸ hcontinues) hr
        simp [FileTree.encounter, hr, hd]
  · rw [entry, if_neg hplace]
    cases node with
    | file other => rfl
    | directory => rfl
    | link next =>
      cases follow with
      | false => rfl
      | true =>
        cases hr : t.resolve true (here.path.join ⟨m⟩) with
        | error cause => simp [FileTree.encounter, hr] at hlisted
        | ok l =>
          obtain ⟨l', hr', hd', hsame⟩ := h.resolve hr
          cases hd : t.isDirectory l with
          | false =>
            rw [hd] at hd'
            simp [FileTree.encounter, hr, hr', hd, hd']
          | true =>
            obtain rfl := hsame hd
            rw [hd] at hd'
            simp [FileTree.encounter, hr, hr', hd, hd']

theorem walks {chain : List Ancestor} {items : List WalkItem} (hw : Walks t follow chain items)
    (hok : NoFailure items)
    (hcontinues : ∀ a ∈ chain.head?, t.Continues a.path a.location) :
    Walks t' follow chain items := by
  induction hw with
  | unread =>
    obtain ⟨path, hpath⟩ := hok _ List.mem_cons_self
    cases hpath
  | @read here above hread within hentered hpassed ih =>
    have hhere : t.Continues here.path here.location := hcontinues here rfl
    have hmeet : ∀ e ∈ t.children here.location,
        t'.encounter follow here above (entry base n content here.location e) =
          t.encounter follow here above e := by
      intro e he
      obtain ⟨path, hpath⟩ := hok _ (List.mem_flatMap.2 ⟨e, he, List.mem_cons_self⟩)
      exact h.encounter he hhere hpath
    -- what is behind an entry is told by its name, which the replacement leaves alone
    have hwithin : ∀ e ∈ t.children here.location,
        t.behindName here.location within (entry base n content here.location e) = within e := by
      intro e he
      simp [behindName, mem_children.1 he]
    have hitems : ((t.children here.location).flatMap fun e =>
          (t.encounter follow here above e).item :: within e) =
        (t'.children here.location).flatMap fun e =>
          (t'.encounter follow here above e).item :: t.behindName here.location within e := by
      rw [h.children, List.flatMap_map]
      exact List.flatMap_congr fun e he => by rw [hmeet e he, hwithin e he]
    rw [hitems]
    refine .read hread (t.behindName here.location within) ?_ ?_
    · intro e' he' next hnext
      rw [h.children] at he'
      obtain ⟨e, he, rfl⟩ := List.mem_map.1 he'
      rw [hmeet e he] at hnext
      rw [hwithin e he]
      refine ih e he next hnext (fun item hitem => ?_) ?_
      · exact hok item (List.mem_flatMap.2 ⟨e, he, List.mem_cons_of_mem _ hitem⟩)
      · intro a ha
        cases ha
        exact hhere.entered he hnext
    · intro e' he' hnone
      rw [h.children] at he'
      obtain ⟨e, he, rfl⟩ := List.mem_map.1 he'
      rw [hmeet e he] at hnone
      rw [hwithin e he]
      exact hpassed e he hnone

end CopiesLink

end DirDigest.FileTree

namespace DirDigest

open FileTree (CopiesLink)

/-! ## Keys -/

section Keys
variable {t t' : FileTree} {base : Location} {n : Name} {target : Path} {content : Bytes}
  (h : t.CopiesLink base n target content t') {follow : Bool} {root : Path} {keys : List String}
include h

theorem copiesLink_collectKeys (hk : collectKeys t follow root = .ok keys) :
    collectKeys t' follow root = .ok keys := by
  obtain ⟨hroot, hkeys⟩ := collectKeys_iff.1 hk
  obtain ⟨l, hl, hd⟩ := stat_directory_iff.1 hroot
  obtain ⟨l', hl', hd', hsame⟩ := h.resolve hl
  obtain rfl := hsame hd
  have hwalk : FileTree.Walks t follow [⟨l', root⟩] (t.walk follow root) :=
    FileTree.walks_walk hl hd
  have hwalk' : FileTree.Walks t' follow [⟨l', root⟩] (t'.walk follow root) :=
    FileTree.walks_walk hl' (hd'.trans hd)
  have hcopied := h.walks hwalk (noFailure_of_collectKeys hk).2 fun a ha => by
    cases ha
    exact FileTree.continues_of_resolve hl
  have hitems : t'.walk follow root = t.walk follow root := hwalk'.unique hcopied
  refine collectKeys_iff.2 ⟨h.stat hroot, ?_⟩
  rw [walkKeys, hitems]
  exact hkeys

theorem copiesLink_digestKey {d : Digester} {key : String} {digest : Digest}
    (hd : d.digestKey t root key = .ok digest) : d.digestKey t' root key = .ok digest := by
  obtain ⟨node, hnode, hdigest⟩ := digestKey_eq_ok.1 hd
  exact digestKey_eq_ok.2 ⟨node, h.stat hnode, hdigest⟩

theorem copiesLink_run {σ : Type} {sink : StatusSink σ} {s : σ} {d e : Digester}
    (hde : d.Agrees e) {ignored : List String} {map : DigestMap}
    (hrun : (d.digestDirectory t root ignored sink s).result = .ok map) :
    (e.digestDirectory t' root ignored sink s).result = .ok map := by
  obtain ⟨keys, digest, hk, hp, rfl⟩ := digestDirectory_eq_ok.1 hrun
  have hk' := copiesLink_collectKeys h hk
  rw [hde.links] at hk'
  refine digestDirectory_eq_ok.2 ⟨keys, digest, hk', hp.imp fun key _ hread => ?_, rfl⟩
  rw [← digestKey_congr hde]
  exact copiesLink_digestKey h hread

end Keys

/-- A link to a file is digested as if it were a copy of the file. With such a copy in its place,
all that was found is found as before, also through other links, and a run that ends well has the
same map. The digest of the path of the link is that of the content under the name of the link. -/
theorem link_as_copy {t : FileTree} {p : Path} {place : Location} {target : Path} {content : Bytes}
    (hplace : t.resolve false p = .ok place) (hlink : t.node? place = some (.link target))
    (hfile : t.stat p = .ok (.file content)) :
    ∃ t', t.replace? place (.file content) = some t' ∧
      (∀ q node, t.stat q = .ok node → t'.stat q = .ok node) ∧
      (∀ d : Digester, (d.digestPath t p).result =
          (digestFile d.config p content d.buffer).result.mapError (.read p) ∧
        (d.digestPath t' p).result = (d.digestPath t p).result) ∧
      ∀ {σ : Type} (sink : StatusSink σ) (s : σ) {d e : Digester} (root : Path)
        (ignored : List String) {map : DigestMap}, d.Agrees e →
        (d.digestDirectory t root ignored sink s).result = .ok map →
        (e.digestDirectory t' root ignored sink s).result = .ok map := by
  obtain ⟨base, n, rfl, hleads⟩ := FileTree.linksToFile_of_path hplace hlink hfile
  obtain ⟨t', ht', h⟩ := FileTree.copiesLink_replace hleads
  refine ⟨t', ht', fun q node => h.stat, fun d => ?_, ?_⟩
  · rw [(digestPath_of_file hfile d).1, (digestPath_of_file (h.stat hfile) d).1]
    exact ⟨rfl, rfl⟩
  · intro σ sink s d e root ignored map hde hrun
    exact copiesLink_run h hde hrun

/-- A link to a link to a file. -/
def linkChain : FileTree :=
  .ofTable [([utf8 "a"], .link "b"), ([utf8 "b"], .link "c"), ([utf8 "c"], .file [7])]
    (by decide) (by decide) (by decide)

theorem linkChain_keys : collectKeys linkChain false "." = .ok ["a", "b", "c"] := by
  have hpaths : linkChain.DirectoryPathsFit [] "." := by
    intro names hd
    rcases linkChain.directory_mem hd with hnil | hmem
    · rw [List.nil_append] at hnil
      subst hnil
      decide
    · simp [linkChain, FileTree.ofTable] at hmem
  have hroot : linkChain.resolve true "." = .ok [] := rfl
  have hlinks : linkChain.EntersNoLink false [] := fun hf => absurd hf Bool.false_ne_true
  have hsorted : (linkChain.nodes.map Prod.fst).Pairwise (· < ·) := by decide
  rw [collectKeys_eq_ok hroot rfl hlinks hpaths, FileTree.below_root hsorted]
  decide +kernel

theorem link_as_copy_sample : ∃ t' map,
    linkChain.replace? [utf8 "b"] (.file [7]) = some t' ∧ t'.stat "a" = .ok (.file [7]) ∧
    ((Digester.new {}).digestDirectory linkChain "." [] .silent ()).result = .ok map ∧
    ((Digester.new {}).digestDirectory t' "." [] .silent ()).result = .ok map := by
  have hread : ∀ key ∈ ["a", "b", "c"],
      (Digester.new {}).digestKey linkChain "." key = .ok (digestBytes [7]) := by decide +kernel
  have hrun : ((Digester.new {}).digestDirectory linkChain "." [] .silent ()).result = .ok _ :=
    silent_eq_ok.2 ⟨_, fun _ => digestBytes [7], linkChain_keys, hread, rfl⟩
  have hplace : linkChain.resolve false "b" = .ok [utf8 "b"] := rfl
  have hlink : linkChain.node? [utf8 "b"] = some (.link "c") := rfl
  have hfile : linkChain.stat "b" = .ok (.file [7]) := rfl
  have hother : linkChain.stat "a" = .ok (.file [7]) := rfl
  obtain ⟨t', ht', hstat, -, hruns⟩ := link_as_copy hplace hlink hfile
  exact ⟨t', _, ht', hstat _ _ hother, hrun, hruns .silent () "." [] (.refl _) hrun⟩

end DirDigest
