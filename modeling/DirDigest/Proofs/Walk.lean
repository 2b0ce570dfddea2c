import DirDigest.Proofs.ByteOrder
import DirDigest.Proofs.FileTree.Resolve
import DirDigest.Proofs.FirstFailure
import DirDigest.Walk
import Mathlib.Data.List.Nodup
import Mathlib.Data.List.Sort

/-! # What a walk lists

* `mem_children`, `children_sorted`: the entries of a directory.
* `FileTree.listing`: the names of all entries below a directory, without any path.
* `mem_listing`, `listing_sorted`: the listing holds what is in the tree, in strict order.
* `visit_eq_listing`: a walk that meets no link to enter is the listing, written as paths.
* `collectKeys_eq_ok`: the keys of such a walk are those of the listing.
-/

set_option autoImplicit false

namespace DirDigest.FileTree

variable {t : FileTree} {l : Location}

/-! ## Entries of a directory -/

theorem nameIn?_eq_some {directory : Location} {n : Name} :
    nameIn? directory l = some n ↔ l = directory ++ [n] := by
  constructor
  · intro h
    unfold nameIn? at h
    split at h
    · rename_i last hlast
      split at h
      · rename_i hdrop
        cases h
        obtain ⟨front, rfl⟩ := List.getLast?_eq_some_iff.1 hlast
        rw [← hdrop, List.dropLast_concat]
      · cases h
    · cases h
  · rintro rfl
    unfold nameIn?
    rw [List.getLast?_concat]
    simp only [List.dropLast_concat, if_true]

theorem mem_children {n : Name} {node : Node} :
    (n, node) ∈ t.children l ↔ t.node? (l ++ [n]) = some node := by
  have hne : l ++ [n] ≠ [] := List.append_ne_nil_of_right_ne_nil l (List.cons_ne_nil n [])
  rw [children, (List.mergeSort_perm _ _).mem_iff, List.mem_filterMap, ← t.mem_nodes_iff hne]
  constructor
  · rintro ⟨⟨place, other⟩, he, h⟩
    obtain ⟨name, hname, heq⟩ := Option.map_eq_some_iff.1 h
    cases heq
    rw [nameIn?_eq_some] at hname
    exact hname ▸ he
  · intro he
    exact ⟨(l ++ [n], node), he, Option.map_eq_some_iff.2 ⟨n, nameIn?_eq_some.2 rfl, rfl⟩⟩

theorem children_sorted (t : FileTree) (l : Location) :
    (t.children l).Pairwise fun a b => a.1 < b.1 := by
  refine strict_of_sort (fun e : Name × Node => e.1) ?_
  have hnames : (t.nodes.filterMap fun e => (nameIn? l e.1).map fun n => (n, e.2)).map Prod.fst =
      (t.nodes.map Prod.fst).filterMap (nameIn? l) := by
    rw [List.map_filterMap, List.filterMap_map]
    refine List.filterMap_congr fun e _ => ?_
    rw [Option.map_map]
    exact Option.map_id'
  rw [hnames]
  refine t.distinct.filterMap fun place other n hn hn' => ?_
  rw [nameIn?_eq_some.1 hn, nameIn?_eq_some.1 hn']

/-! ## Listings -/

/-- The names of the entries below a directory, down to a depth, a directory before its entries. -/
def listing (t : FileTree) : (depth : Nat) → Location → List (List Name)
  | 0, _ => []
  | depth + 1, l =>
    (t.children l).flatMap fun entry =>
      [entry.1] ::
        if entry.2 = .directory then (t.listing depth (l ++ [entry.1])).map (entry.1 :: ·) else []

theorem mem_listing {depth : Nat} {names : List Name} :
    names ∈ t.listing depth l ↔
      names ≠ [] ∧ names.length ≤ depth ∧ ∃ node, t.node? (l ++ names) = some node := by
  induction depth generalizing l names with
  | zero =>
    simp only [listing, List.not_mem_nil, false_iff]
    rintro ⟨hne, hlength, -⟩
    exact hne (List.length_eq_zero_iff.1 (Nat.le_zero.1 hlength))
  | succ depth ih =>
    rw [listing, List.mem_flatMap]
    constructor
    · rintro ⟨⟨n, node⟩, he, hnames⟩
      have hn := mem_children.1 he
      rcases List.mem_cons.1 hnames with rfl | hbelow
      · exact ⟨List.cons_ne_nil n [], Nat.succ_le_succ (Nat.zero_le depth), node, hn⟩
      · by_cases hd : node = .directory
        · rw [if_pos hd] at hbelow
          obtain ⟨rest, hrest, rfl⟩ := List.mem_map.1 hbelow
          obtain ⟨-, hlength, below, hnode⟩ := ih.1 hrest
          rw [← List.append_cons] at hnode
          exact ⟨List.cons_ne_nil n rest, Nat.succ_le_succ hlength, below, hnode⟩
        · rw [if_neg hd] at hbelow
          cases hbelow
    · rintro ⟨hne, hlength, node, hnode⟩
      cases names with
      | nil => exact absurd rfl hne
      | cons n rest =>
        by_cases hrest : rest = []
        · subst hrest
          exact ⟨(n, node), mem_children.2 hnode, List.mem_cons_self⟩
        · rw [List.append_cons] at hnode
          -- what leads to an entry is a directory, so the listing goes down to it
          have hd : t.node? (l ++ [n]) = some .directory :=
            beq_iff_eq.1 (isDirectory_of_below hrest hnode)
          refine ⟨(n, .directory), mem_children.2 hd, List.mem_cons_of_mem _ ?_⟩
          rw [if_pos rfl]
          exact List.mem_map_of_mem (ih.2 ⟨hrest, Nat.le_of_succ_le_succ hlength, node, hnode⟩)

/-- The names of the entries of a directory, each followed by the names that lead on from it, are in
strict order if the names behind each entry are. -/
theorem blocks_sorted {entries : List (Name × Node)} (hs : entries.Pairwise fun a b => a.1 < b.1)
    {inner : Name × Node → List (List Name)} (hinner : ∀ e ∈ entries, (inner e).Pairwise (· < ·))
    (hne : ∀ e ∈ entries, [] ∉ inner e) :
    (entries.flatMap fun e => [e.1] :: (inner e).map (e.1 :: ·)).Pairwise (· < ·) := by
  have hhead : ∀ (e : Name × Node) (names : List Name), names ∈ [e.1] :: (inner e).map (e.1 :: ·) →
      ∃ rest, names = e.1 :: rest := by
    intro e names hnames
    rcases List.mem_cons.1 hnames with rfl | hbehind
    · exact ⟨[], rfl⟩
    · obtain ⟨rest, -, rfl⟩ := List.mem_map.1 hbehind
      exact ⟨rest, rfl⟩
  rw [List.pairwise_flatMap]
  constructor
  · intro e he
    refine List.pairwise_cons.2 ⟨fun names hnames => ?_, ?_⟩
    · obtain ⟨rest, hrest, rfl⟩ := List.mem_map.1 hnames
      refine List.cons_lt_cons_iff.2 (.inr ⟨rfl, ?_⟩)
      cases rest with
      | nil => exact absurd hrest (hne e he)
      | cons n rest => exact List.nil_lt_cons n rest
    · refine List.pairwise_map.2 ((hinner e he).imp fun hlt => ?_)
      exact List.cons_lt_cons_iff.2 (.inr ⟨rfl, hlt⟩)
  · refine hs.imp fun {a b} hab names hnames others hothers => ?_
    obtain ⟨rest, rfl⟩ := hhead a names hnames
    obtain ⟨rest', rfl⟩ := hhead b others hothers
    exact List.cons_lt_cons_iff.2 (.inl hab)

/-- The names that lead on from an entry, down to a depth. -/
def listingBehind (t : FileTree) (depth : Nat) (l : Location) (e : Name × Node) :
    List (List Name) :=
  if e.2 = .directory then t.listing depth (l ++ [e.1]) else []

theorem listing_succ (t : FileTree) (depth : Nat) (l : Location) :
    t.listing (depth + 1) l = (t.children l).flatMap fun e =>
      [e.1] :: (t.listingBehind depth l e).map (e.1 :: ·) := by
  rw [listing]
  refine List.flatMap_congr fun e _ => congrArg _ ?_
  unfold listingBehind
  split
  · rfl
  · rfl

theorem listing_sorted (t : FileTree) (depth : Nat) (l : Location) :
    (t.listing depth l).Pairwise (· < ·) := by
  induction depth generalizing l with
  | zero => exact List.Pairwise.nil
  | succ depth ih =>
    rw [listing_succ]
    refine blocks_sorted (children_sorted t l) (fun e _ => ?_) fun e _ => ?_
    · unfold listingBehind
      split
      · exact ih _
      · exact List.Pairwise.nil
    · unfold listingBehind
      split
      · exact fun hnil => (mem_listing.1 hnil).1 rfl
      · exact List.not_mem_nil

/-- There is one list of the names in a listing in strict order. -/
theorem listing_eq {depth : Nat} {sorted : List (List Name)} (hs : sorted.Pairwise (· < ·))
    (h : ∀ names, names ∈ t.listing depth l ↔ names ∈ sorted) : t.listing depth l = sorted := by
  have hantisymm : Std.Antisymm (fun a b : List Name => a < b) :=
    ⟨fun a b hab hba => absurd (List.lt_trans hab hba) (List.lt_irrefl a)⟩
  have hirrefl : Std.Irrefl (fun a b : List Name => a < b) := ⟨List.lt_irrefl⟩
  exact (listing_sorted t depth l).eq_of_mem_iff hs h

/-! ## Depth -/

theorem le_foldl_max (ns : List Nat) (m : Nat) :
    m ≤ ns.foldl max m ∧ ∀ n ∈ ns, n ≤ ns.foldl max m := by
  induction ns generalizing m with
  | nil => exact ⟨Nat.le_refl m, fun n hn => absurd hn List.not_mem_nil⟩
  | cons n rest ih =>
    obtain ⟨hm, hrest⟩ := ih (max m n)
    rw [List.foldl_cons]
    refine ⟨Nat.le_trans (Nat.le_max_left m n) hm, fun k hk => ?_⟩
    rcases List.mem_cons.1 hk with rfl | hk
    · exact Nat.le_trans (Nat.le_max_right m k) hm
    · exact hrest k hk

theorem length_le_depth {node : Node} (h : t.node? l = some node) : l.length ≤ t.depth := by
  by_cases hl : l = []
  · rw [hl]
    exact Nat.zero_le _
  · have hmem : (l, node) ∈ t.nodes := (t.mem_nodes_iff hl).2 h
    exact (le_foldl_max _ 0).2 l.length (List.mem_map_of_mem (f := fun e => e.1.length) hmem)

theorem length_le_wayBound {node : Node} (h : t.node? l = some node) : l.length ≤ t.wayBound := by
  have hdepth := length_le_depth h
  have hbound : t.depth + 2 ≤ t.wayBound := Nat.le_mul_of_pos_left _ (Nat.succ_pos _)
  omega

/-- The names of all entries below a directory. -/
def below (t : FileTree) (l : Location) : List (List Name) := t.listing t.wayBound l

theorem mem_below {names : List Name} :
    names ∈ t.below l ↔ names ≠ [] ∧ ∃ node, t.node? (l ++ names) = some node := by
  rw [below, mem_listing]
  constructor
  · rintro ⟨hne, -, hnode⟩
    exact ⟨hne, hnode⟩
  · rintro ⟨hne, node, hnode⟩
    have hlength := length_le_wayBound hnode
    rw [List.length_append] at hlength
    exact ⟨hne, by omega, node, hnode⟩

/-- Below the root is the whole table. -/
theorem below_root (hs : (t.nodes.map Prod.fst).Pairwise (· < ·)) :
    t.below [] = t.nodes.map Prod.fst := by
  refine listing_eq hs fun names => ?_
  rw [← below, mem_below, List.nil_append]
  constructor
  · rintro ⟨hne, node, hnode⟩
    exact List.mem_map_of_mem (f := Prod.fst) ((t.mem_nodes_iff hne).2 hnode)
  · intro hmem
    obtain ⟨⟨place, node⟩, he, rfl⟩ := List.mem_map.1 hmem
    have hne := (t.named _ he).1
    exact ⟨hne, node, (t.mem_nodes_iff hne).1 he⟩

/-! ## Walks -/

/-- Whether a walk enters real directories only: links are not followed, or there are none. -/
def EntersNoLink (t : FileTree) (follow : Bool) (l : Location) : Prop :=
  follow = true → ∀ names target, t.node? (l ++ names) ≠ some (.link target)

/-- Whether the paths of all directories below a root are short enough. -/
def DirectoryPathsFit (t : FileTree) (l : Location) (p : Path) : Prop :=
  ∀ names, t.isDirectory (l ++ names) = true → (p.extend names).bytes.length < pathLimit

theorem EntersNoLink.child {follow : Bool} (h : t.EntersNoLink follow l) (n : Name) :
    t.EntersNoLink follow (l ++ [n]) := by
  intro hf names target
  rw [← List.append_cons]
  exact h hf (n :: names) target

theorem DirectoryPathsFit.child {p : Path} (h : t.DirectoryPathsFit l p) (n : Name) :
    t.DirectoryPathsFit (l ++ [n]) (p.join ⟨n⟩) := by
  intro names hd
  rw [← List.append_cons] at hd
  exact h (n :: names) hd

/-- A walk is the listing, each list of names continuing the path of the root. -/
theorem visit_eq_listing {follow : Bool} {depth : Nat} {p : Path} {above : List Ancestor}
    (hl : t.isDirectory l = true) (hlinks : t.EntersNoLink follow l)
    (hpaths : t.DirectoryPathsFit l p) :
    t.visit follow depth (⟨l, p⟩ :: above) =
      (t.listing depth l).map fun names => .ok (p.extend names) := by
  -- no link is entered, so the ancestors are carried along and never looked at
  induction depth generalizing l p above with
  | zero => rfl
  | succ depth ih =>
    have hlength : p.bytes.length < pathLimit := by
      have h := hpaths []
      rw [List.append_nil] at h
      exact h hl
    rw [visit, if_neg (Nat.not_le.2 hlength), listing, List.map_flatMap]
    refine List.flatMap_congr fun ⟨n, node⟩ he => ?_
    have hnode := mem_children.1 he
    cases node with
    | file content => rfl
    | directory =>
      have hd : t.isDirectory (l ++ [n]) = true := by
        rw [isDirectory, hnode]
        exact beq_self_eq_true _
      have hbelow : t.visit follow depth (⟨l ++ [n], p.join ⟨n⟩⟩ :: ⟨l, p⟩ :: above) = _ :=
        ih hd (hlinks.child n) (hpaths.child n)
      dsimp only
      rw [hbelow, if_pos rfl, List.map_cons, List.map_map]
      rfl
    | link target =>
      cases follow with
      | false => rfl
      | true => exact absurd hnode (hlinks rfl [n] target)

theorem walk_eq_below {follow : Bool} {root : Path} (hroot : t.resolve true root = .ok l)
    (hl : t.isDirectory l = true) (hlinks : t.EntersNoLink follow l)
    (hpaths : t.DirectoryPathsFit l root) :
    t.walk follow root = (t.below l).map fun names => .ok (root.extend names) := by
  rw [walk, hroot]
  dsimp only
  rw [if_pos hl, visit_eq_listing hl hlinks hpaths, below]

end DirDigest.FileTree

namespace DirDigest

open FileTree (EntersNoLink DirectoryPathsFit)

/-! ## Keys -/

theorem allOrFirst_map_ok {ε α : Type} (values : List α) :
    allOrFirst (values.map (.ok : α → Except ε α)) = .ok values := by
  induction values with
  | nil => rfl
  | cons value rest ih => simp only [List.map_cons, allOrFirst, ih]

theorem map_ok_of_allOrFirst {ε α : Type} {results : List (Except ε α)} {values : List α}
    (h : allOrFirst results = .ok values) : results = values.map .ok := by
  induction results generalizing values with
  | nil =>
    cases h
    rfl
  | cons result rest ih =>
    cases result with
    | error e => cases h
    | ok value =>
      rw [allOrFirst] at h
      cases hrest : allOrFirst rest with
      | error e =>
        rw [hrest] at h
        cases h
      | ok others =>
        rw [hrest] at h
        cases h
        rw [List.map_cons, ih hrest]

theorem allOrFirst_eq_ok {ε α : Type} {results : List (Except ε α)} {values : List α} :
    allOrFirst results = .ok values ↔ results = values.map .ok :=
  ⟨map_ok_of_allOrFirst, fun h => h ▸ allOrFirst_map_ok values⟩

theorem allOrFirst_error {ε α : Type} {before : List (Except ε α)}
    (h : ∀ result ∈ before, ∃ value, result = .ok value) (e : ε) (after : List (Except ε α)) :
    allOrFirst (before ++ .error e :: after) = .error e := by
  induction before with
  | nil => rfl
  | cons result rest ih =>
    obtain ⟨value, rfl⟩ := h result List.mem_cons_self
    have hrest := ih fun other hother => h other (List.mem_cons_of_mem _ hother)
    rw [List.cons_append, allOrFirst, hrest]

/-- A list of results and a list of options that agree are all values at the same time. -/
theorem map_ok_iff_map_some {α β ε : Type} {l : List α} {f : α → Except ε β} {g : α → Option β}
    (h : ∀ a ∈ l, (f a).toOption = g a) {values : List β} :
    l.map f = values.map .ok ↔ l.map g = values.map some := by
  induction l generalizing values with
  | nil => cases values <;> simp
  | cons a rest ih =>
    have ha := h a List.mem_cons_self
    have ih := @ih fun b hb => h b (List.mem_cons_of_mem a hb)
    cases values with
    | nil => simp
    | cons value values =>
      rw [List.map_cons, List.map_cons, List.map_cons, List.map_cons, List.cons.injEq,
        List.cons.injEq, ih, ← ha]
      refine and_congr_left fun _ => ⟨fun hf => ?_, ok_of_toOption⟩
      rw [hf]
      rfl

theorem key_toOption (root : Path) {names : List Name} (h : ∀ n ∈ names, IsName n)
    (hne : names ≠ []) :
    (WalkItem.key root (.ok (root.extend names))).toOption = keyOf? names := by
  rw [WalkItem.key, key?_extend root h hne]
  cases keyOf? names <;> rfl

section Collecting
variable {t : FileTree} {l : Location} {follow : Bool} {root : Path}

theorem checkRoot_ok (hroot : t.resolve true root = .ok l) (hl : t.isDirectory l = true) :
    checkRoot t root = .ok () := by
  have hnode : t.node? l = some .directory := beq_iff_eq.1 hl
  simp only [checkRoot, FileTree.stat, FileTree.nodeAt, hroot, hnode]

/-- The keys of a walk are those of the listing, if all names there are text. -/
theorem collectKeys_eq_ok (hroot : t.resolve true root = .ok l) (hl : t.isDirectory l = true)
    (hlinks : t.EntersNoLink follow l) (hpaths : t.DirectoryPathsFit l root) {keys : List String} :
    collectKeys t follow root = .ok keys ↔ (t.below l).map keyOf? = keys.map some := by
  have hkey : ∀ names ∈ t.below l,
      (WalkItem.key root (.ok (root.extend names))).toOption = keyOf? names := by
    intro names hnames
    obtain ⟨hne, node, hnode⟩ := FileTree.mem_below.1 hnames
    exact key_toOption root (FileTree.names_below hnode) hne
  simp only [collectKeys, checkRoot_ok hroot hl, walkKeys,
    FileTree.walk_eq_below hroot hl hlinks hpaths, List.map_map, allOrFirst_eq_ok]
  exact map_ok_iff_map_some hkey

end Collecting

end DirDigest
