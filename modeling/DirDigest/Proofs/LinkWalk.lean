import DirDigest.Proofs.Way
import Mathlib.Tactic.Choose

/-! # Walking through links

* `Walks`: the items of a walk, told without a bound on the length of its ways.
* `walks_visit`, `Walks.unique`: a walk ends, and has one list of items.
* `directoryPathsFit_of_walk`: what a walk without failures tells of the paths below the root.
* `Walks.entries`: the names that a walk without failures lists, in strict order.
* `Walks.mem_iff`, `Walks.nodup`, `Walks.loop_closed`: which items there are, each of them once, and
  none behind a link that leads back.
* `walk_throughLinks`: walks from a root.
-/

set_option autoImplicit false

namespace DirDigest.FileTree

variable {t : FileTree} {follow : Bool} {here : Ancestor} {above : List Ancestor}

/-! ## The walk without a bound -/

/-- The items below the last directory of a chain: each entry has its item, and the items of the
directory that is entered there follow it. -/
inductive Walks (t : FileTree) (follow : Bool) : List Ancestor → List WalkItem → Prop
  | unread {here : Ancestor} {above : List Ancestor} (h : pathLimit ≤ here.path.bytes.length) :
    Walks t follow (here :: above) [.error (.io here.path (.system .nameTooLong))]
  | read {here : Ancestor} {above : List Ancestor} (hread : here.path.bytes.length < pathLimit)
    (within : Name × Node → List WalkItem)
    (hentered : ∀ e ∈ t.children here.location, ∀ next,
      (t.encounter follow here above e).entered = some next →
      Walks t follow (next :: here :: above) (within e))
    (hpassed : ∀ e ∈ t.children here.location,
      (t.encounter follow here above e).entered = none → within e = []) :
    Walks t follow (here :: above)
      ((t.children here.location).flatMap fun e =>
        (t.encounter follow here above e).item :: within e)

/-- What reading the last directory of a chain yields by itself. -/
inductive Yields (t : FileTree) (follow : Bool) : List Ancestor → WalkItem → Prop
  | unread {here : Ancestor} {above : List Ancestor} (h : pathLimit ≤ here.path.bytes.length) :
    Yields t follow (here :: above) (.error (.io here.path (.system .nameTooLong)))
  | entry {here : Ancestor} {above : List Ancestor} (hread : here.path.bytes.length < pathLimit)
    {e : Name × Node} (he : e ∈ t.children here.location) :
    Yields t follow (here :: above) (t.encounter follow here above e).item

section Walking
variable {chain further : List Ancestor} {links : List Location} {items others : List WalkItem}

/-- A way goes on where an entry is entered. -/
theorem Way.enter {base : List Ancestor} (way : Way t follow base (here :: above) links)
    (hread : here.path.bytes.length < pathLimit) {e : Name × Node}
    (he : e ∈ t.children here.location) {next : Ancestor}
    (hnext : (t.encounter follow here above e).entered = some next) :
    ∃ links', Way t follow base (next :: here :: above) links' := by
  obtain ⟨l, path⟩ := next
  obtain ⟨rfl, -, ⟨hnode, rfl⟩ | ⟨hfollow, hlink, hnew⟩⟩ := encounter_enters he hnext
  · exact ⟨links, .directory way hread hnode⟩
  · exact ⟨l :: links, .link way hread hfollow hlink hnew⟩

/-- With fuel for the longest way the bound of a walk is never felt. -/
theorem walks_visit {start : Ancestor} (hstart : t.isDirectory start.location = true) {fuel : Nat}
    (way : Way t follow [start] chain links) (hfuel : t.wayBound < fuel + chain.length) :
    Walks t follow chain (t.visit follow fuel chain) := by
  induction fuel generalizing chain links with
  | zero =>
    have hle := way.length_le_wayBound hstart
    omega
  | succ fuel ih =>
    obtain ⟨here, above, rfl, -⟩ := way.length_le hstart
    rw [visit_succ]
    by_cases hlong : pathLimit ≤ here.path.bytes.length
    · rw [if_pos hlong]
      exact .unread hlong
    · rw [if_neg hlong]
      have hread := Nat.not_le.1 hlong
      refine .read hread (fun e => (t.encounter follow here above e).entered.elim []
        fun next => t.visit follow fuel (next :: here :: above)) ?_ ?_
      · intro e he next hnext
        obtain ⟨links', way'⟩ := way.enter hread he hnext
        have hlength : t.wayBound < fuel + (next :: here :: above).length := by
          rw [List.length_cons]
          omega
        rw [hnext]
        exact ih way' hlength
      · intro e he hnone
        rw [hnone]
        rfl

theorem walks_walk {l : Location} {root : Path} (hroot : t.resolve true root = .ok l)
    (hl : t.isDirectory l = true) : Walks t follow [⟨l, root⟩] (t.walk follow root) := by
  have hvisit : t.walk follow root = t.visit follow t.wayBound [⟨l, root⟩] := by
    simp [walk, hroot, hl]
  rw [hvisit]
  exact walks_visit hl .start (Nat.lt_succ_self _)

theorem Walks.unique (h : Walks t follow chain items) (h' : Walks t follow chain others) :
    items = others := by
  induction h generalizing others with
  | unread hlong =>
    cases h' with
    | unread => rfl
    | read hread => exact absurd hlong (Nat.not_le.2 hread)
  | @read here above hread within hentered hpassed ih =>
    cases h' with
    | unread hlong => exact absurd hlong (Nat.not_le.2 hread)
    | read _ within' hentered' hpassed' =>
      refine List.flatMap_congr fun e he => congrArg _ ?_
      cases hnext : (t.encounter follow here above e).entered with
      | none => rw [hpassed e he hnext, hpassed' e he hnext]
      | some next => exact ih e he next hnext (hentered' e he next hnext)

/-! ## Items -/

theorem Walks.within (h : Walks t follow (here :: above) items)
    (hread : here.path.bytes.length < pathLimit) {e : Name × Node}
    (he : e ∈ t.children here.location) {next : Ancestor}
    (hnext : (t.encounter follow here above e).entered = some next) :
    ∃ others, Walks t follow (next :: here :: above) others ∧ others ⊆ items := by
  cases h with
  | unread hlong => exact absurd hlong (Nat.not_le.2 hread)
  | read _ within hentered _ =>
    refine ⟨within e, hentered e he next hnext, fun item hitem => ?_⟩
    exact List.mem_flatMap.2 ⟨e, he, List.mem_cons_of_mem _ hitem⟩

/-- The items of a longer way are among those of the walk. -/
theorem Walks.sub (h : Walks t follow chain items) (way : Way t follow chain further links) :
    ∃ others, Walks t follow further others ∧ others ⊆ items := by
  induction way with
  | start => exact ⟨items, h, List.Subset.refl items⟩
  | @directory here above links n way hread hnode ih =>
    obtain ⟨others, hwalk, hsub⟩ := ih
    obtain ⟨e, he, hmeet⟩ := encounter_directory follow above hnode
    obtain ⟨inner, hinner, hsub'⟩ := hwalk.within hread he (congrArg Encounter.entered hmeet)
    exact ⟨inner, hinner, List.Subset.trans hsub' hsub⟩
  | @link here above links n l way hread hfollow hlink hnew ih =>
    obtain ⟨others, hwalk, hsub⟩ := ih
    subst hfollow
    obtain ⟨e, he, hmeet⟩ := encounter_link hlink hnew
    obtain ⟨inner, hinner, hsub'⟩ := hwalk.within hread he (congrArg Encounter.entered hmeet)
    exact ⟨inner, hinner, List.Subset.trans hsub' hsub⟩

/-- The items of a walk are those that the directories on its ways yield. -/
theorem Walks.mem_iff (h : Walks t follow chain items) {item : WalkItem} :
    item ∈ items ↔
      ∃ further links, Way t follow chain further links ∧ Yields t follow further item := by
  constructor
  · intro hitem
    induction h with
    | unread hlong => exact ⟨_, [], .start, List.mem_singleton.1 hitem ▸ .unread hlong⟩
    | @read here above hread within hentered hpassed ih =>
      obtain ⟨e, he, hitem⟩ := List.mem_flatMap.1 hitem
      rcases List.mem_cons.1 hitem with rfl | hitem
      · exact ⟨_, [], .start, .entry hread he⟩
      · cases hnext : (t.encounter follow here above e).entered with
        | none =>
          rw [hpassed e he hnext] at hitem
          cases hitem
        | some next =>
          obtain ⟨further, links, way, hyields⟩ := ih e he next hnext hitem
          have hstart : Way t follow (here :: above) (here :: above) [] := .start
          obtain ⟨first, hfirst⟩ := hstart.enter hread he hnext
          exact ⟨further, links ++ first, hfirst.trans way, hyields⟩
  · rintro ⟨further, links, way, hyields⟩
    obtain ⟨others, hwalk, hsub⟩ := h.sub way
    refine hsub ?_
    cases hyields with
    | unread hlong =>
      cases hwalk with
      | unread => exact List.mem_cons_self
      | read hread => exact absurd hlong (Nat.not_le.2 hread)
    | entry hread he =>
      cases hwalk with
      | unread hlong => exact absurd hlong (Nat.not_le.2 hread)
      | read => exact List.mem_flatMap.2 ⟨_, he, List.mem_cons_self⟩

/-! ## Walks without failures -/

/-- Whether a walk has met no failure. -/
def NoFailure (items : List WalkItem) : Prop := ∀ item ∈ items, ∃ path, item = .ok path

theorem Walks.reads_here (h : Walks t follow (here :: above) items) (hok : NoFailure items) :
    here.path.bytes.length < pathLimit := by
  cases h with
  | unread hlong =>
    obtain ⟨path, hpath⟩ := hok _ List.mem_cons_self
    cases hpath
  | read hread => exact hread

theorem Walks.reads_below (h : Walks t follow (here :: above) items) (hok : NoFailure items)
    {names : List Name} (hd : t.isDirectory (here.location ++ names) = true) :
    (here.path.extend names).bytes.length < pathLimit := by
  induction names generalizing here above items with
  | nil => exact h.reads_here hok
  | cons n rest ih =>
    rw [List.append_cons] at hd
    have hnode : t.node? (here.location ++ [n]) = some .directory := by
      cases rest with
      | nil => simpa [isDirectory] using hd
      | cons m more =>
        have hbelow := beq_iff_eq.1 hd
        exact beq_iff_eq.1 (isDirectory_of_below (List.cons_ne_nil m more) hbelow)
    obtain ⟨e, he, hmeet⟩ := encounter_directory follow above hnode
    have hentered := congrArg Encounter.entered hmeet
    obtain ⟨inner, hinner, hsub⟩ := h.within (h.reads_here hok) he hentered
    exact ih hinner (fun item hitem => hok item (hsub hitem)) hd

/-- A walk without failures has read every directory that is reached through real directories. -/
theorem directoryPathsFit_of_walk {l : Location} {root : Path}
    (hroot : t.resolve true root = .ok l) (hl : t.isDirectory l = true)
    (hok : NoFailure (t.walk follow root)) : t.DirectoryPathsFit l root :=
  fun _ hd => (walks_walk hroot hl).reads_below hok hd

/-! ## Paths of items -/

/-- The path that an item is about. -/
def subject : WalkItem → Path
  | .ok path => path
  | .error (.io path _) => path
  | .error (.loop child _) => child

/-- Whether an item is about what names lead to from a directory. About the directory itself there
is only the failure to read it. -/
structure IsAbout (p : Path) (names : List Name) (item : WalkItem) : Prop where
  named : ∀ n ∈ names, IsName n
  path : subject item = p.extend names
  unread : names = [] → item = .error (.io p (.system .nameTooLong))

theorem IsAbout.cons {p : Path} {n : Name} {names : List Name} {item : WalkItem} (hn : IsName n)
    (h : IsAbout (p.join ⟨n⟩) names item) : IsAbout p (n :: names) item :=
  ⟨List.forall_mem_cons.2 ⟨hn, h.named⟩, h.path, nofun⟩

section Paths
variable {e : Name × Node} {next : Ancestor}

theorem encounter_subject (he : e ∈ t.children here.location) (follow : Bool)
    (above : List Ancestor) :
    subject (t.encounter follow here above e).item = here.path.join ⟨e.1⟩ := by
  rcases encounter_cases he follow above with ⟨l, hmeet, -⟩ | hmeet | ⟨cause, hmeet⟩ | ⟨a, hmeet, -⟩
  · rw [hmeet, subject]
  · rw [hmeet, subject]
  · rw [hmeet, subject]
  · rw [hmeet, subject]

theorem isName_of_child (he : e ∈ t.children here.location) : IsName e.1 :=
  names_below (mem_children.1 he) e.1 List.mem_cons_self

theorem child_unique {e' : Name × Node} (he : e ∈ t.children here.location)
    (he' : e' ∈ t.children here.location) (h : e.1 = e'.1) : e = e' := by
  have hnode := mem_children.1 he
  rw [h, mem_children.1 he'] at hnode
  exact Prod.ext h (Option.some.inj hnode).symm

theorem encounter_about (he : e ∈ t.children here.location) (follow : Bool)
    (above : List Ancestor) :
    IsAbout here.path [e.1] (t.encounter follow here above e).item :=
  ⟨fun _ hn => List.mem_singleton.1 hn ▸ isName_of_child he, encounter_subject he follow above,
    nofun⟩

/-- A directory that is entered is listed under the path by which it is entered. -/
theorem encounter_entered (he : e ∈ t.children here.location)
    (hnext : (t.encounter follow here above e).entered = some next) :
    next.path = here.path.join ⟨e.1⟩ ∧ (t.encounter follow here above e).item = .ok next.path := by
  obtain ⟨hpath, hlisted, -⟩ := encounter_enters he hnext
  exact ⟨hpath, hlisted⟩

end Paths

/-- Every item of a walk is about a path below the directory where the walk starts. -/
theorem Walks.about (h : Walks t follow chain items) : ∃ here above, chain = here :: above ∧
    ∀ item ∈ items, ∃ names, IsAbout here.path names item := by
  induction h with
  | unread hlong =>
    refine ⟨_, _, rfl, fun item hitem => ⟨[], ?_⟩⟩
    rw [List.mem_singleton.1 hitem]
    exact ⟨nofun, rfl, fun _ => rfl⟩
  | @read here above hread within hentered hpassed ih =>
    refine ⟨_, _, rfl, fun item hitem => ?_⟩
    obtain ⟨e, he, hitem⟩ := List.mem_flatMap.1 hitem
    rcases List.mem_cons.1 hitem with rfl | hitem
    · exact ⟨[e.1], encounter_about he follow above⟩
    · cases hnext : (t.encounter follow here above e).entered with
      | none =>
        rw [hpassed e he hnext] at hitem
        cases hitem
      | some next =>
        obtain ⟨_, _, heq, habout⟩ := ih e he next hnext
        cases heq
        obtain ⟨names, hnames⟩ := habout item hitem
        rw [(encounter_entered he hnext).1] at hnames
        exact ⟨e.1 :: names, hnames.cons (isName_of_child he)⟩

/-- The paths that a walk without failures lists continue the one where it starts by names, in
strict order of the names. -/
theorem Walks.entries (h : Walks t follow chain items) (hok : NoFailure items) :
    ∃ here above, chain = here :: above ∧ ∃ entries : List (List Name),
      items = entries.map (fun names => .ok (here.path.extend names)) ∧
      entries.Pairwise (· < ·) ∧ ∀ names ∈ entries, names ≠ [] ∧ ∀ n ∈ names, IsName n := by
  induction h with
  | unread =>
    obtain ⟨path, hpath⟩ := hok _ List.mem_cons_self
    cases hpath
  | @read here above hread within hentered hpassed ih =>
    have hinner : ∀ e ∈ t.children here.location, ∃ inner : List (List Name),
        within e = inner.map (fun names => .ok ((here.path.join ⟨e.1⟩).extend names)) ∧
        inner.Pairwise (· < ·) ∧ ∀ names ∈ inner, names ≠ [] ∧ ∀ n ∈ names, IsName n := by
      intro e he
      cases hnext : (t.encounter follow here above e).entered with
      | none => exact ⟨[], hpassed e he hnext, List.Pairwise.nil, nofun⟩
      | some next =>
        have hbehind : NoFailure (within e) := fun item hitem =>
          hok item (List.mem_flatMap.2 ⟨e, he, List.mem_cons_of_mem _ hitem⟩)
        obtain ⟨_, _, heq, inner, hwithin, hsorted, hnamed⟩ := ih e he next hnext hbehind
        cases heq
        rw [(encounter_entered he hnext).1] at hwithin
        exact ⟨inner, hwithin, hsorted, hnamed⟩
    choose! inner hwithin hsorted hnamed using hinner
    refine ⟨here, above, rfl, (t.children here.location).flatMap fun e =>
      [e.1] :: (inner e).map (e.1 :: ·), ?_, ?_, ?_⟩
    · rw [List.map_flatMap]
      refine List.flatMap_congr fun e he => ?_
      obtain ⟨path, hpath⟩ := hok _ (List.mem_flatMap.2 ⟨e, he, List.mem_cons_self⟩)
      have hsubject := encounter_subject he follow above
      rw [hpath, subject] at hsubject
      rw [hpath, hsubject, hwithin e he, List.map_cons, List.map_map]
      rfl
    · exact blocks_sorted (children_sorted t here.location) hsorted
        fun e he hnil => (hnamed e he [] hnil).1 rfl
    · intro names hnames
      obtain ⟨e, he, hnames⟩ := List.mem_flatMap.1 hnames
      have hname := isName_of_child he
      rcases List.mem_cons.1 hnames with rfl | hnames
      · exact ⟨List.cons_ne_nil _ _, fun n hn => List.mem_singleton.1 hn ▸ hname⟩
      · obtain ⟨rest, hrest, rfl⟩ := List.mem_map.1 hnames
        exact ⟨List.cons_ne_nil _ _, List.forall_mem_cons.2 ⟨hname, (hnamed e he rest hrest).2⟩⟩

section Reading
variable {within : Name × Node → List WalkItem}
  (hentered : ∀ e ∈ t.children here.location, ∀ next,
    (t.encounter follow here above e).entered = some next →
    Walks t follow (next :: here :: above) (within e))
  (hpassed : ∀ e ∈ t.children here.location,
    (t.encounter follow here above e).entered = none → within e = [])
include hentered hpassed

/-- What is known of an item behind an entry. -/
theorem within_about {e : Name × Node} (he : e ∈ t.children here.location) {item : WalkItem}
    (hitem : item ∈ within e) :
    (∃ next, (t.encounter follow here above e).entered = some next) ∧
    (t.encounter follow here above e).item = .ok (here.path.join ⟨e.1⟩) ∧
    ∃ names, IsAbout (here.path.join ⟨e.1⟩) names item := by
  cases hnext : (t.encounter follow here above e).entered with
  | none =>
    rw [hpassed e he hnext] at hitem
    cases hitem
  | some next =>
    obtain ⟨hpath, hlisted⟩ := encounter_entered he hnext
    obtain ⟨_, _, heq, habout⟩ := (hentered e he next hnext).about
    cases heq
    rw [← hpath]
    exact ⟨⟨next, rfl⟩, hlisted, habout item hitem⟩

theorem block_about {e : Name × Node} (he : e ∈ t.children here.location) {item : WalkItem}
    (hitem : item ∈ (t.encounter follow here above e).item :: within e) :
    ∃ names, IsAbout here.path (e.1 :: names) item := by
  rcases List.mem_cons.1 hitem with rfl | hitem
  · exact ⟨[], encounter_about he follow above⟩
  · obtain ⟨-, -, names, hnames⟩ := within_about hentered hpassed he hitem
    exact ⟨names, hnames.cons (isName_of_child he)⟩

/-- No item behind an entry is that of the entry. -/
theorem item_notMem_within {e : Name × Node} (he : e ∈ t.children here.location) :
    (t.encounter follow here above e).item ∉ within e := by
  intro hitem
  obtain ⟨-, hlisted, names, hnames⟩ := within_about hentered hpassed he hitem
  rw [hlisted] at hnames
  have hnil : [] = names := extend_injective (here.path.join ⟨e.1⟩) nofun hnames.named hnames.path
  cases hnames.unread hnil.symm

end Reading

/-- A walk yields no item twice. -/
theorem Walks.nodup (h : Walks t follow chain items) : items.Nodup := by
  induction h with
  | unread => exact List.nodup_singleton _
  | @read here above hread within hentered hpassed ih =>
    refine List.nodup_flatMap.2 ⟨fun e he => ?_, ?_⟩
    · refine List.nodup_cons.2 ⟨item_notMem_within hentered hpassed he, ?_⟩
      cases hnext : (t.encounter follow here above e).entered with
      | none =>
        rw [hpassed e he hnext]
        exact List.nodup_nil
      | some next => exact ih e he next hnext
    · -- two entries have different names, and so have the paths below them
      refine (children_sorted t here.location).imp_of_mem ?_
      intro e e' he he' hlt item hitem hitem'
      obtain ⟨names, hnames⟩ := block_about hentered hpassed he hitem
      obtain ⟨others, hothers⟩ := block_about hentered hpassed he' hitem'
      have heq := extend_injective here.path hnames.named hothers.named
        (hnames.path.symm.trans hothers.path)
      rw [(List.cons.inj heq).1] at hlt
      exact List.lt_irrefl _ hlt

/-- What leads back is not entered: no other item is about its path or a path behind it. -/
theorem Walks.loop_closed (h : Walks t follow chain items) {child ancestor : Path}
    (hloop : .error (.loop child ancestor) ∈ items) {item : WalkItem} (hitem : item ∈ items)
    {names : List Name} (hnames : ∀ n ∈ names, IsName n)
    (hpath : subject item = child.extend names) :
    item = .error (.loop child ancestor) := by
  induction h with
  | unread => cases List.mem_singleton.1 hloop
  | @read here above hread within hentered hpassed ih =>
    obtain ⟨e, he, hloop⟩ := List.mem_flatMap.1 hloop
    obtain ⟨e', he', hitem⟩ := List.mem_flatMap.1 hitem
    obtain ⟨first, hfirst⟩ := block_about hentered hpassed he hloop
    obtain ⟨second, hsecond⟩ := block_about hentered hpassed he' hitem
    have hchild : child = here.path.extend (e.1 :: first) := hfirst.path
    have hvalid : ∀ n ∈ e.1 :: first ++ names, IsName n :=
      List.forall_mem_append.2 ⟨hfirst.named, hnames⟩
    have heq : e'.1 :: second = e.1 :: first ++ names := by
      refine extend_injective here.path hsecond.named hvalid ?_
      rw [← hsecond.path, hpath, hchild, extend_append]
    obtain rfl : e' = e := child_unique he' he (List.cons.inj heq).1
    rcases List.mem_cons.1 hloop with hloop | hloop
    · rcases List.mem_cons.1 hitem with hitem | hitem
      · rw [hitem, hloop]
      · obtain ⟨-, hlisted, -⟩ := within_about hentered hpassed he hitem
        rw [hlisted] at hloop
        cases hloop
    · obtain ⟨⟨next, hnext⟩, hlisted, inner, hinner⟩ := within_about hentered hpassed he hloop
      rcases List.mem_cons.1 hitem with hitem | hitem
      · -- the item of the entry is about a shorter path than what is behind the entry
        have hdirect : here.path.join ⟨e'.1⟩ = child.extend names := by
          rw [← hpath, hitem, encounter_subject he follow above]
        have hinnerpath : child = (here.path.join ⟨e'.1⟩).extend inner := hinner.path
        rw [hinnerpath, ← extend_append] at hdirect
        have hnil : [] = inner ++ names := extend_injective _ nofun
          (List.forall_mem_append.2 ⟨hinner.named, hnames⟩) hdirect
        cases hinner.unread (List.append_eq_nil_iff.1 hnil.symm).1
      · exact ih e' he next hnext hloop hitem

/-- A loop is told exactly for the links that lead back to a directory on the way to them. -/
theorem Walks.mem_loop (h : Walks t true chain items) {child ancestor : Path} :
    .error (.loop child ancestor) ∈ items ↔
      ∃ here above links n a, Way t true chain (here :: above) links ∧
        here.path.bytes.length < pathLimit ∧ t.LinksBack here above n a ∧
        child = here.path.join ⟨n⟩ ∧ ancestor = a.path := by
  rw [h.mem_iff]
  constructor
  · rintro ⟨further, links, way, hyields⟩
    generalize hitem : (.error (.loop child ancestor) : WalkItem) = item at hyields
    cases hyields with
    | unread => cases hitem
    | @entry here above hread e he =>
      rcases encounter_cases he true above with
        ⟨l, hmeet, -⟩ | hmeet | ⟨cause, hmeet⟩ | ⟨a, hmeet, -, hback⟩
      · rw [hmeet] at hitem
        cases hitem
      · rw [hmeet] at hitem
        cases hitem
      · rw [hmeet] at hitem
        cases hitem
      · rw [hmeet] at hitem
        cases hitem
        exact ⟨here, above, links, e.1, a, way, hread, hback, rfl, rfl⟩
  · rintro ⟨here, above, links, n, a, way, hread, hback, rfl, rfl⟩
    obtain ⟨e, he, hmeet⟩ := encounter_loop hback
    have hyields : Yields t true (here :: above) (t.encounter true here above e).item :=
      .entry hread he
    rw [hmeet] at hyields
    exact ⟨here :: above, links, way, hyields⟩

/-- Every path that is listed ends a way. -/
theorem Walks.mem_ok (h : Walks t follow chain items) {path : Path} (hpath : .ok path ∈ items) :
    ∃ here above links n, Way t follow chain (here :: above) links ∧ path = here.path.join ⟨n⟩ ∧
      ∃ node, t.node? (here.location ++ [n]) = some node := by
  obtain ⟨further, links, way, hyields⟩ := h.mem_iff.1 hpath
  generalize hitem : (.ok path : WalkItem) = item at hyields
  cases hyields with
  | unread => cases hitem
  | @entry here above hread e he =>
    have hsubject := encounter_subject he follow above
    rw [← hitem, subject] at hsubject
    exact ⟨here, above, links, e.1, way, hsubject, e.2, mem_children.1 he⟩

/-- The keys of a walk are distinct. -/
theorem Walks.keys_nodup {l : Location} {root : Path} (h : Walks t follow [⟨l, root⟩] items) :
    ((items.map (WalkItem.key root)).filterMap Except.toOption).Nodup := by
  obtain ⟨_, _, heq, habout⟩ := h.about
  cases heq
  rw [List.filterMap_map]
  refine List.pairwise_filterMap.2 (h.nodup.imp_of_mem fun {item item'} hitem hitem' hne => ?_)
  rintro key hkey _ hkey' rfl
  have hnames : ∀ item ∈ items, (WalkItem.key root item).toOption = some key →
      ∃ names, names ≠ [] ∧ (∀ n ∈ names, IsName n) ∧ item = .ok (root.extend names) ∧
        keyOf? names = some key := by
    intro item hitem hkey
    obtain ⟨names, hnames⟩ := habout item hitem
    cases item with
    | error fault => cases hkey
    | ok path =>
      have hpath : path = root.extend names := hnames.path
      have hvalid : names ≠ [] := fun hnil => nomatch hnames.unread hnil
      subst hpath
      simp only [WalkItem.key, key?_extend root hnames.named hvalid] at hkey
      refine ⟨names, hvalid, hnames.named, rfl, ?_⟩
      cases hk : keyOf? names with
      | none =>
        rw [hk] at hkey
        cases hkey
      | some k =>
        rw [hk] at hkey
        exact hkey
  obtain ⟨names, hvalid, hnamed, rfl, hk⟩ := hnames item hitem hkey
  obtain ⟨others, hvalid', hnamed', rfl, hk'⟩ := hnames item' hitem' hkey'
  rw [keyOf?_injective hnamed hvalid hnamed' hvalid' hk hk'] at hne
  exact hne rfl

end Walking

/-! ## Walks from a root -/

/-- What holds of a walk through links from `root`, the path of the directory at `l`. -/
structure WalksThroughLinks (t : FileTree) (l : Location) (root : Path) (items : List WalkItem) :
    Prop where
  /-- The walk comes to an end, whatever the links, and these are its items. -/
  ends : ∀ others, Walks t true [⟨l, root⟩] others ↔ others = items
  /-- A loop is told exactly for the links that are met and lead back to a directory on the way. -/
  loops : ∀ child ancestor, .error (.loop child ancestor) ∈ items ↔
    ∃ here above links n a, Way t true [⟨l, root⟩] (here :: above) links ∧
      here.path.bytes.length < pathLimit ∧ t.LinksBack here above n a ∧
      child = here.path.join ⟨n⟩ ∧ ancestor = a.path
  /-- Such a link is not entered: it is told of once, and no other item is behind it. -/
  closed : ∀ child ancestor, .error (.loop child ancestor) ∈ items → ∀ item ∈ items,
    ∀ names, (∀ n ∈ names, IsName n) → subject item = child.extend names →
    item = .error (.loop child ancestor)
  distinct : items.Nodup
  keys : ((items.map (WalkItem.key root)).filterMap Except.toOption).Nodup
  /-- Every path that is listed ends a way. -/
  paths : ∀ path, .ok path ∈ items → ∃ here above links n,
    Way t true [⟨l, root⟩] (here :: above) links ∧ path = here.path.join ⟨n⟩ ∧
    ∃ node, t.node? (here.location ++ [n]) = some node
  /-- The directories that are entered through links on one way are distinct, and none of them is
  the one where the way starts. -/
  links : ∀ chain links, Way t true [⟨l, root⟩] chain links → (links ++ [l]).Nodup
  /-- So there are not too many of them, and a way is not much longer than that. -/
  bounded : ∀ chain links, Way t true [⟨l, root⟩] chain links →
    links.length ≤ t.nodes.length ∧ chain.length ≤ t.wayBound

/-- A walk through links ends for every tree and every root. -/
theorem walk_throughLinks (t : FileTree) (root : Path) :
    (∀ cause, t.resolve true root = .error cause → t.walk true root = [.error (.io root cause)]) ∧
    (∀ l, t.resolve true root = .ok l → t.isDirectory l = false → t.walk true root = []) ∧
    ∀ l, t.resolve true root = .ok l → t.isDirectory l = true →
      WalksThroughLinks t l root (t.walk true root) := by
  refine ⟨fun cause h => by rw [walk, h], fun l h hl => by simp [walk, h, hl], fun l h hl => ?_⟩
  have hwalk : Walks t true [⟨l, root⟩] (t.walk true root) := walks_walk h hl
  constructor
  · intro others
    exact ⟨fun h => h.unique hwalk, fun h => h ▸ hwalk⟩
  · exact fun child ancestor => hwalk.mem_loop
  · exact fun child ancestor hloop item hitem names hnames hpath =>
      hwalk.loop_closed hloop hitem hnames hpath
  · exact hwalk.nodup
  · exact hwalk.keys_nodup
  · exact fun path hpath => hwalk.mem_ok hpath
  · exact fun chain links way => way.links_nodup
  · exact fun chain links way => ⟨way.links_length_le hl, way.length_le_wayBound hl⟩

/-- A directory with a link to the directory that contains it. -/
def linkedTree : FileTree :=
  .ofTable [([utf8 "d"], .directory), ([utf8 "d", utf8 "up"], .link "..")]
    (by decide) (by decide) (by decide)

-- the root `d` is entered once more through the link, and there the link leads back
theorem walk_throughLinks_sample :
    linkedTree.resolve true "d" = .ok [utf8 "d"] ∧ linkedTree.isDirectory [utf8 "d"] = true ∧
    .error (.loop "d/up/d/up" "d/up") ∈ linkedTree.walk true "d" ∧
    (linkedTree.walk true "d").Nodup := by
  have hwalk := (walk_throughLinks linkedTree "d").2.2 [utf8 "d"] rfl rfl
  have houter : linkedTree.LinksTo ⟨[utf8 "d"], "d"⟩ (utf8 "up") [] := ⟨⟨"..", rfl⟩, rfl, rfl⟩
  have hinner : linkedTree.LinksTo ⟨[utf8 "d"], "d/up/d"⟩ (utf8 "up") [] := ⟨⟨"..", rfl⟩, rfl, rfl⟩
  have hlink : Way linkedTree true [⟨[utf8 "d"], "d"⟩] [⟨[], "d/up"⟩, ⟨[utf8 "d"], "d"⟩] [[]] :=
    .link .start (by decide) rfl houter (by decide)
  have hway : Way linkedTree true [⟨[utf8 "d"], "d"⟩]
      [⟨[utf8 "d"], "d/up/d"⟩, ⟨[], "d/up"⟩, ⟨[utf8 "d"], "d"⟩] [[]] :=
    .directory hlink (by decide) rfl
  refine ⟨rfl, rfl, ?_, hwalk.distinct⟩
  refine (hwalk.loops "d/up/d/up" "d/up").2 ⟨_, _, _, utf8 "up", ⟨[], "d/up"⟩, hway, by decide, ?_,
    rfl, rfl⟩
  exact ⟨hinner, [⟨[utf8 "d"], "d/up/d"⟩], [⟨[utf8 "d"], "d"⟩], rfl, by decide⟩

end DirDigest.FileTree
