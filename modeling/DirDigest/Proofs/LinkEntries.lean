import DirDigest.Proofs.MapContents
import Mathlib.Data.List.Induction

/-! # What following links adds

A walk that follows links lists all that the walk of the same root does that follows none, and
besides what is behind links to directories.

* `FileTree.linksToDirectory`, `behindLink`: paths that are links to directories, and the keys
  behind them.
* `Way.real_or_linked`: a way goes down from the root, or through a link that the walk has listed.
* `Collected.mem_of_below`, `Collected.mem_below`, `Collected.not_behindLink`: which of the listed
  names are in real directories.
* `collectKeys_plain`: the keys of that walk are the other ones without those behind links.
* `following_adds`: so is the map of a run.
-/

set_option autoImplicit false

namespace DirDigest

open FileTree (Walks NoFailure)

/-- Whether there is a link at a path that leads to a directory. -/
def FileTree.linksToDirectory (t : FileTree) (p : Path) : Bool :=
  match t.lstat p, t.stat p with
  | .ok (.link _), .ok .directory => true
  | _, _ => false

/-- Whether a key is below another one. -/
def isBelow (key ancestor : String) : Bool := (utf8 ancestor ++ [slash]).isPrefixOf (utf8 key)

/-- Whether one of the keys above a key is that of a link to a directory. -/
def behindLink (t : FileTree) (root : Path) (keys : List String) (key : String) : Bool :=
  keys.any fun ancestor => isBelow key ancestor && t.linksToDirectory (root.join ancestor)

theorem isBelow_iff {key ancestor : String} :
    isBelow key ancestor = true ↔ ∃ tail, utf8 key = utf8 ancestor ++ slash :: tail := by
  rw [isBelow, List.isPrefixOf_iff_prefix]
  constructor
  · rintro ⟨tail, htail⟩
    exact ⟨tail, by rw [← htail, List.append_assoc, List.singleton_append]⟩
  · rintro ⟨tail, htail⟩
    exact ⟨tail, by rw [htail, List.append_assoc, List.singleton_append]⟩

namespace FileTree
variable {t : FileTree} {l : Location} {root : Path}

theorem linksToDirectory_iff {p : Path} :
    t.linksToDirectory p = true ↔
      (∃ target, t.lstat p = .ok (.link target)) ∧ t.stat p = .ok .directory := by
  unfold linksToDirectory
  split
  · rename_i hl hs
    exact iff_of_true rfl ⟨⟨_, hl⟩, hs⟩
  · rename_i hne
    refine iff_of_false Bool.false_ne_true ?_
    rintro ⟨⟨target, hl⟩, hs⟩
    exact hne target hl hs

/-! ## Ways -/

theorem not_linksToDirectory (hroot : t.resolve true root = .ok l) {names : List Name}
    (hne : names ≠ []) (hd : t.isDirectory (l ++ names) = true) :
    t.linksToDirectory (root.extend names) = false := by
  have hnode : t.node? (l ++ names) = some .directory := beq_iff_eq.1 hd
  have hat : t.lstat (root.extend names) =
      if WithinLimits root names then .ok .directory else .error (.system .nameTooLong) :=
    nodeAt_extend hroot hne hnode nofun
  refine Bool.eq_false_iff.2 fun hlinks => ?_
  obtain ⟨⟨target, hl⟩, -⟩ := linksToDirectory_iff.1 hlinks
  rw [hat] at hl
  split at hl
  · cases hl
  · cases hl

theorem linksToDirectory_of_linksTo (hroot : t.resolve true root = .ok l) {here : Ancestor}
    {names : List Name} {n : Name} (hpath : here.path = root.extend names)
    (hlocation : here.location = l ++ names) {place : Location} (h : t.LinksTo here n place) :
    t.linksToDirectory (root.extend (names ++ [n])) = true := by
  obtain ⟨target, hnode⟩ := h.link
  have hjoin : here.path.join ⟨n⟩ = root.extend (names ++ [n]) := by rw [extend_concat, hpath]
  have hstat : t.stat (root.extend (names ++ [n])) = .ok .directory := by
    refine stat_directory_iff.2 ⟨place, ?_, h.directory⟩
    rw [← hjoin]
    exact h.resolves
  rw [hlocation, List.append_assoc] at hnode
  have hne : names ++ [n] ≠ [] := List.append_ne_nil_of_right_ne_nil _ (List.cons_ne_nil n [])
  have hat : t.lstat (root.extend (names ++ [n])) =
      if WithinLimits root (names ++ [n]) then .ok (.link target)
      else .error (.system .nameTooLong) :=
    nodeAt_extend hroot hne hnode nofun
  obtain ⟨there, hthere⟩ := lstat_of_stat hstat
  refine linksToDirectory_iff.2 ⟨⟨target, ?_⟩, hstat⟩
  rw [hthere] at hat ⊢
  split at hat
  · exact hat
  · cases hat

/-- The directory at the end of a way is where the names of its path lead to from the root, unless
the way enters a link that the walk has listed. -/
theorem Way.real_or_linked {items : List WalkItem} (hroot : t.resolve true root = .ok l)
    (hwalk : Walks t true [⟨l, root⟩] items) {chain : List Ancestor} {links : List Location}
    (way : Way t true [⟨l, root⟩] chain links) :
    ∃ here above names, chain = here :: above ∧ (∀ n ∈ names, IsName n) ∧
      here.path = root.extend names ∧
      (here.location = l ++ names ∨ ∃ first rest, names = first ++ rest ∧ first ≠ [] ∧
        .ok (root.extend first) ∈ items ∧ t.linksToDirectory (root.extend first) = true) := by
  induction way with
  | start => exact ⟨_, _, [], rfl, nofun, rfl, .inl (List.append_nil l).symm⟩
  | @directory here above links n way hread hnode ih =>
    obtain ⟨_, _, names, heq, hnamed, hpath, hplace⟩ := ih
    cases heq
    have hn : IsName n := names_below hnode n List.mem_cons_self
    refine ⟨_, _, names ++ [n], rfl, isName_concat hnamed hn, ?_, ?_⟩
    · rw [extend_concat, hpath]
    · rcases hplace with hreal | ⟨first, rest, rfl, hlinked⟩
      · left
        rw [hreal, List.append_assoc]
      · exact .inr ⟨first, rest ++ [n], List.append_assoc _ _ _, hlinked⟩
  | @link here above links n place way hread hfollow hlink hnew ih =>
    obtain ⟨_, _, names, heq, hnamed, hpath, hplace⟩ := ih
    cases heq
    obtain ⟨target, hnode⟩ := hlink.link
    have hn : IsName n := names_below hnode n List.mem_cons_self
    have hjoin : here.path.join ⟨n⟩ = root.extend (names ++ [n]) := by rw [extend_concat, hpath]
    refine ⟨_, _, names ++ [n], rfl, isName_concat hnamed hn, hjoin, .inr ?_⟩
    rcases hplace with hreal | ⟨first, rest, rfl, hlinked⟩
    · -- the first link on the way: it is in the tree below the root, and the walk lists it
      obtain ⟨e, he, hmeet⟩ := encounter_link hlink hnew
      have hitem : Yields t true (here :: above) (t.encounter true here above e).item :=
        .entry hread he
      rw [hmeet, hjoin] at hitem
      refine ⟨names ++ [n], [], (List.append_nil _).symm, ?_, ?_, ?_⟩
      · exact List.append_ne_nil_of_right_ne_nil _ (List.cons_ne_nil n [])
      · exact hwalk.mem_iff.2 ⟨_, _, way, hitem⟩
      · exact linksToDirectory_of_linksTo hroot hpath hreal hlink
    · exact ⟨first, rest ++ [n], List.append_assoc _ _ _, hlinked⟩

theorem way_real (follow : Bool) (hpaths : t.DirectoryPathsFit l root) {names : List Name}
    (hd : t.isDirectory (l ++ names) = true) :
    ∃ above, Way t follow [⟨l, root⟩] (⟨l ++ names, root.extend names⟩ :: above) [] := by
  induction names using List.reverseRecOn with
  | nil =>
    rw [List.append_nil]
    exact ⟨[], .start⟩
  | append_singleton names n ih =>
    rw [← List.append_assoc] at hd
    have hnode : t.node? (l ++ names ++ [n]) = some .directory := beq_iff_eq.1 hd
    have hparent : t.isDirectory (l ++ names) = true := isDirectory_of_child hnode
    obtain ⟨above, way⟩ := ih hparent
    refine ⟨⟨l ++ names, root.extend names⟩ :: above, ?_⟩
    rw [extend_concat, ← List.append_assoc]
    exact .directory way (hpaths names hparent) hnode

end FileTree

/-! ## Keys -/

section Names
variable {names first : List Name} (hnamed : ∀ n ∈ names, IsName n) (hfirst : ∀ n ∈ first, IsName n)
  (hne : first ≠ []) {key ancestor : String} (hk : keyOf? names = some key)
  (ha : keyOf? first = some ancestor)
include hnamed hfirst hne hk ha

theorem isBelow_of_names {more : List Name} (hmore : more ≠ []) (h : names = first ++ more) :
    isBelow key ancestor = true := by
  subst h
  obtain ⟨tail, htail⟩ := extend_below ⟨[]⟩ hnamed hne hmore
  refine isBelow_iff.2 ⟨tail, ?_⟩
  have hsome : first ++ more ≠ [] := List.append_ne_nil_of_left_ne_nil hne more
  rw [← (key_path hnamed hsome hk).2, ← (key_path hfirst hne ha).2] at htail
  exact htail

theorem names_of_isBelow (hsome : names ≠ []) (h : isBelow key ancestor = true) :
    ∃ more, more ≠ [] ∧ names = first ++ more := by
  obtain ⟨tail, htail⟩ := isBelow_iff.1 h
  have hsteps : names = first ++ (⟨tail⟩ : Path).steps := by
    rw [← steps_key hnamed hsome hk, ← steps_key hfirst hne ha, Path.steps, Path.steps, Path.steps,
      ← List.filter_append, ← List.splitOn_append_cons_self, htail]
  refine ⟨_, fun hnil => ?_, hsteps⟩
  -- nothing more would make the keys equal
  rw [hnil, List.append_nil] at hsteps
  obtain rfl : key = ancestor := Option.some.inj (hk.symm.trans (hsteps ▸ ha))
  have hlength := congrArg List.length htail
  rw [List.length_append, List.length_cons] at hlength
  omega

end Names

section Keys
variable {t : FileTree} {l : Location} {root : Path} {follow : Bool} {keys : List String}
  {entries : List (List Name)}

theorem Collected.walks (h : Collected t follow root keys l entries) :
    Walks t follow [⟨l, root⟩] (t.walk follow root) := FileTree.walks_walk h.resolves h.directory

theorem Collected.directoryPathsFit (h : Collected t follow root keys l entries) :
    t.DirectoryPathsFit l root := by
  have hok : NoFailure (t.walk follow root) := by
    intro item hitem
    rw [h.walked] at hitem
    obtain ⟨names, -, hpath⟩ := List.mem_map.1 hitem
    exact ⟨_, hpath.symm⟩
  exact FileTree.directoryPathsFit_of_walk h.resolves h.directory hok

theorem Collected.mem_entries (h : Collected t follow root keys l entries) {item : WalkItem}
    (hitem : item ∈ t.walk follow root) {names : List Name} (hnamed : ∀ n ∈ names, IsName n)
    (hpath : FileTree.subject item = root.extend names) : names ∈ entries := by
  rw [h.walked] at hitem
  obtain ⟨listed, hlisted, rfl⟩ := List.mem_map.1 hitem
  have heq : listed = names := extend_injective root (h.named listed hlisted).2 hnamed hpath
  exact heq ▸ hlisted

theorem Collected.mem_of_below (h : Collected t follow root keys l entries) {names : List Name}
    (hnames : names ∈ t.below l) : names ∈ entries := by
  obtain ⟨hne, node, hnode⟩ := FileTree.mem_below.1 hnames
  have hnamed := FileTree.names_below hnode
  obtain ⟨front, n, rfl⟩ : ∃ front n, names = front ++ [n] :=
    ⟨_, _, (List.dropLast_append_getLast hne).symm⟩
  rw [← List.append_assoc] at hnode
  have hd := FileTree.isDirectory_of_child hnode
  have hread := h.directoryPathsFit front hd
  obtain ⟨above, way⟩ := FileTree.way_real follow h.directoryPathsFit hd
  have he : (n, node) ∈ t.children (l ++ front) := FileTree.mem_children.2 hnode
  have hitem := h.walks.mem_iff.2 ⟨_, _, way, .entry hread he⟩
  refine h.mem_entries hitem hnamed ?_
  rw [FileTree.encounter_subject he follow above, extend_concat]

variable (h : Collected t true root keys l entries) {names : List Name} {key : String}
include h

/-- What a walk that follows links lists is in a real directory below the root, unless it is behind
a link to a directory. -/
theorem Collected.mem_below (hnames : names ∈ entries) (hk : keyOf? names = some key)
    (hplain : behindLink t root keys key = false) : names ∈ t.below l := by
  obtain ⟨hne, hnamed⟩ := h.named names hnames
  have hitem : .ok (root.extend names) ∈ t.walk true root := by
    rw [h.walked]
    exact List.mem_map_of_mem hnames
  obtain ⟨here, above, links, n, way, hpath, node, hnode⟩ := h.walks.mem_ok hitem
  have hn : IsName n := FileTree.names_below hnode n List.mem_cons_self
  obtain ⟨_, _, front, heq, hfront, hhere, hplace⟩ := way.real_or_linked h.resolves h.walks
  cases heq
  have hsplit : names = front ++ [n] := by
    refine extend_injective root hnamed (isName_concat hfront hn) ?_
    rw [hpath, hhere, extend_concat]
  rcases hplace with hreal | ⟨first, rest, rfl, hfirst, hlisted, hlinks⟩
  · refine FileTree.mem_below.2 ⟨hne, node, ?_⟩
    rw [hsplit, ← List.append_assoc, ← hreal]
    exact hnode
  · -- the key of the link stands above the key
    rw [List.append_assoc] at hsplit
    have hlink : ∀ n ∈ first, IsName n := (List.forall_mem_append.1 hfront).1
    obtain ⟨ancestor, hancestor, ha⟩ := h.names_key (h.mem_entries hlisted hlink rfl)
    have hmore : rest ++ [n] ≠ [] := List.append_ne_nil_of_right_ne_nil rest (List.cons_ne_nil n [])
    have hbelow := isBelow_of_names hnamed hlink hfirst hk ha hmore hsplit
    have hbehind : behindLink t root keys key = true := by
      refine List.any_eq_true.2 ⟨ancestor, hancestor, ?_⟩
      rw [hbelow, join_key root hlink hfirst ha, hlinks]
      rfl
    rw [hplain] at hbehind
    cases hbehind

theorem Collected.not_behindLink (hnames : names ∈ t.below l) (hk : keyOf? names = some key) :
    behindLink t root keys key = false := by
  obtain ⟨hsome, node, hnode⟩ := FileTree.mem_below.1 hnames
  refine Bool.eq_false_iff.2 fun hbehind => ?_
  obtain ⟨ancestor, hancestor, habove⟩ := List.any_eq_true.1 hbehind
  obtain ⟨hbelow, hlinks⟩ := Bool.and_eq_true_iff.1 habove
  obtain ⟨first, hfirst, ha⟩ := h.key_names hancestor
  obtain ⟨hne, hnamed⟩ := h.named first hfirst
  obtain ⟨more, hmore, rfl⟩ :=
    names_of_isBelow (FileTree.names_below hnode) hnamed hne hk ha hsome hbelow
  rw [← List.append_assoc] at hnode
  have hd : t.isDirectory (l ++ first) = true := FileTree.isDirectory_of_below hmore hnode
  rw [join_key root hnamed hne ha, FileTree.not_linksToDirectory h.resolves hne hd] at hlinks
  cases hlinks

end Keys

/-- Where a walk that follows links ends well, the one that follows none does so too, with the same
keys in the same order, less those behind links. -/
theorem collectKeys_plain {t : FileTree} {root : Path} {keys : List String}
    (hk : collectKeys t true root = .ok keys) :
    collectKeys t false root = .ok (keys.filter fun key => !behindLink t root keys key) := by
  obtain ⟨l, entries, h⟩ := collected hk
  have hbelow : t.below l = entries.filter fun names =>
      (keyOf? names).any fun key => !behindLink t root keys key := by
    refine FileTree.listing_eq (h.sorted.filter _) fun names => ?_
    rw [← FileTree.below, List.mem_filter]
    constructor
    · intro hnames
      have hlisted := h.mem_of_below hnames
      obtain ⟨key, -, hkey⟩ := h.names_key hlisted
      have hplain := h.not_behindLink hnames hkey
      exact ⟨hlisted, by simp [hkey, hplain]⟩
    · rintro ⟨hlisted, hany⟩
      obtain ⟨key, -, hkey⟩ := h.names_key hlisted
      refine h.mem_below hlisted hkey ?_
      simpa [hkey] using hany
  have hlinks : t.EntersNoLink false l := fun hf => absurd hf Bool.false_ne_true
  rw [collectKeys_eq_ok h.resolves h.directory hlinks h.directoryPathsFit, hbelow]
  have hkeys := congrArg (List.filter (Option.any fun key => !behindLink t root keys key)) h.keys
  rw [List.filter_map, List.filter_map] at hkeys
  exact hkeys

/-! ## Runs -/

/-- A digester with the same settings that follows links or follows none. -/
def Digester.following (d : Digester) (follow : Bool) : Digester :=
  { d with config := { d.config with followLinks := follow } }

theorem following_digestKey (d : Digester) (follow : Bool) (t : FileTree) (root : Path)
    (key : String) : (d.following follow).digestKey t root key = d.digestKey t root key := by
  have hdigest : (digestContent (d.following follow).config t (root.join key) d.buffer).result =
      (digestContent d.config t (root.join key) d.buffer).result :=
    (digestContent_congr rfl Iff.rfl t (root.join key)).1
  exact congrArg (Except.mapError (DigestError.read (root.join key))) hdigest

/-- Where a run that follows links ends well, the one that follows none does so too. It walks the
same paths in the same order, less those behind links, and has the same digests of them. -/
theorem following_adds {d : Digester} {t : FileTree} {root : Path} {ignored : List String}
    {map : DigestMap}
    (h : ((d.following true).digestDirectory t root ignored .silent ()).result = .ok map) :
    ∃ keys, collectKeys t true root = .ok keys ∧
      collectKeys t false root = .ok (keys.filter fun key => !behindLink t root keys key) ∧
      ((d.following false).digestDirectory t root ignored .silent ()).result =
        .ok (map.restrict fun key => !behindLink t root keys key) := by
  obtain ⟨keys, digest, hk, hread, rfl⟩ := silent_eq_ok.1 h
  have hplain := collectKeys_plain hk
  have hlive : liveKeys ignored (keys.filter fun key => !behindLink t root keys key) =
      (liveKeys ignored keys).filter fun key => !behindLink t root keys key := by
    unfold liveKeys
    exact List.filter_comm _ _ _
  refine ⟨keys, hk, hplain, silent_eq_ok.2 ⟨_, digest, hplain, fun key hkey => ?_, ?_⟩⟩
  · rw [hlive] at hkey
    have hdigest := hread key (List.mem_filter.1 hkey).1
    rw [following_digestKey] at hdigest ⊢
    exact hdigest
  · rw [restrict_insertAll, hlive]

/-- A directory with a link to another one beside it. -/
def sideLink : FileTree :=
  .ofTable [([utf8 "a"], .directory), ([utf8 "a", utf8 "s"], .link "../b"),
      ([utf8 "b"], .directory), ([utf8 "b", utf8 "x"], .file [7])]
    (by decide) (by decide) (by decide)

theorem following_adds_sample : ∃ map,
    (((Digester.new {}).following true).digestDirectory sideLink "a" [] .silent ()).result =
      .ok map ∧
    collectKeys sideLink true "a" = .ok ["s", "s/x"] ∧
    collectKeys sideLink false "a" = .ok ["s"] ∧
    (((Digester.new {}).following false).digestDirectory sideLink "a" [] .silent ()).result =
      .ok (map.restrict fun key => !behindLink sideLink "a" ["s", "s/x"] key) := by
  have hrun : (((Digester.new {}).following true).digestDirectory sideLink "a" []
      .silent ()).result.toOption.isSome = true := by decide +kernel
  have hwalked : collectKeys sideLink true "a" = .ok ["s", "s/x"] := by decide +kernel
  have hbehind : (["s", "s/x"].filter fun key => !behindLink sideLink "a" ["s", "s/x"] key) =
      ["s"] := by decide +kernel
  obtain ⟨map, hmap⟩ := Option.isSome_iff_exists.1 hrun
  obtain ⟨keys, hk, hplain, hmap'⟩ := following_adds (ok_of_toOption hmap)
  obtain rfl : keys = ["s", "s/x"] := Except.ok.inj (hk.symm.trans hwalked)
  rw [hbehind] at hplain
  exact ⟨map, ok_of_toOption hmap, hwalked, hplain, hmap'⟩

end DirDigest
