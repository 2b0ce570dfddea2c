import DirDigest.Proofs.Walk

/-! # Writing over a file

* `Rewrites`: two trees that differ in the content of one file.
* `node?_replace`, `rewrites_replace`: replacing the file gives such a tree.
* `Rewrites.resolve`, `Rewrites.below`: a path leads to the same place in both, and the same names
  are below a directory.
-/

set_option autoImplicit false

namespace DirDigest.FileTree

/-- Whether two trees are the same but for the file at `place`, which holds `old` in the first one
and `new` in the second one. -/
structure Rewrites (t : FileTree) (place : Location) (old new : Bytes) (t' : FileTree) : Prop where
  home : t'.home = t.home
  old : t.node? place = some (.file old)
  new : t'.node? place = some (.file new)
  others : ∀ l, l ≠ place → t'.node? l = t.node? l

/-! ## Replacing a file -/

theorem lookup_map_setNode (nodes : List (Location × Node)) (place l : Location) (node : Node) :
    (nodes.map (setNode place node)).lookup l =
      if l = place then (nodes.lookup l).map fun _ => node else nodes.lookup l := by
  induction nodes with
  | nil => simp
  | cons e rest ih =>
    rw [List.map_cons, List.lookup_cons, List.lookup_cons, setNode_fst, ih]
    by_cases hl : l = e.1
    · subst hl
      by_cases he : e.1 = place <;> simp [setNode, he]
    · simp [beq_eq_false_iff_ne.2 hl]

theorem node?_replace {t t' : FileTree} {place : Location} {node : Node}
    (h : t.replace? place node = some t') :
    t'.home = t.home ∧
      ∀ l, t'.node? l = if l = place then (t.node? l).map fun _ => node else t.node? l := by
  unfold replace? at h
  split at h
  · rename_i hfile
    cases h
    refine ⟨rfl, fun l => ?_⟩
    by_cases hl : l = []
    · have hne : [] ≠ place := by
        rintro rfl
        cases hfile
      subst hl
      rw [if_neg hne]
      rfl
    · simp only [node?, hl, if_false]
      exact lookup_map_setNode t.nodes place l node
  · cases h

theorem rewrites_replace {t t' : FileTree} {place : Location} {old new : Bytes}
    (hold : t.node? place = some (.file old)) (h : t.replace? place (.file new) = some t') :
    t.Rewrites place old new t' := by
  obtain ⟨hhome, hnodes⟩ := node?_replace h
  constructor
  · exact hhome
  · exact hold
  · rw [hnodes, if_pos rfl, hold]
    rfl
  · intro l hl
    rw [hnodes, if_neg hl]

/-! ## What does not change -/

section Unchanged
variable {t t' : FileTree} {place l : Location} {old new : Bytes}

theorem Rewrites.isDirectory (h : t.Rewrites place old new t') (l : Location) :
    t'.isDirectory l = t.isDirectory l := by
  by_cases hl : l = place
  · subst hl
    rw [FileTree.isDirectory, FileTree.isDirectory, h.old, h.new]
    rfl
  · rw [FileTree.isDirectory, FileTree.isDirectory, h.others l hl]

theorem Rewrites.advance (h : t.Rewrites place old new t') (follow : Bool) (l : Location)
    (steps : List Bytes) : t'.advance follow l steps = t.advance follow l steps := by
  induction steps generalizing l with
  | nil => rfl
  | cons segment rest ih =>
    rw [FileTree.advance, FileTree.advance]
    by_cases hl : l = place
    · rw [hl, h.old, h.new]
    · rw [h.others l hl, ih l, ih l.dropLast, ih (l ++ [segment])]
      by_cases hnext : l ++ [segment] = place
      · rw [hnext, h.old, h.new]
      · rw [h.others _ hnext]

theorem Rewrites.resolveFrom (h : t.Rewrites place old new t') (follow : Bool) (links : Nat)
    (l : Location) (steps : List Bytes) :
    t'.resolveFrom follow links l steps = t.resolveFrom follow links l steps := by
  induction links generalizing l steps with
  | zero => rw [FileTree.resolveFrom, FileTree.resolveFrom, h.advance]
  | succ links ih => simp only [FileTree.resolveFrom, h.advance, ih]

/-- A path leads to the same place. -/
theorem Rewrites.resolve (h : t.Rewrites place old new t') (follow : Bool) (p : Path) :
    t'.resolve follow p = t.resolve follow p := by
  rw [FileTree.resolve, FileTree.resolve, h.home, h.resolveFrom]

theorem Rewrites.exists_node (h : t.Rewrites place old new t') (l : Location) :
    (∃ node, t'.node? l = some node) ↔ ∃ node, t.node? l = some node := by
  by_cases hl : l = place
  · subst hl
    exact iff_of_true ⟨_, h.new⟩ ⟨_, h.old⟩
  · rw [h.others l hl]

/-- The same names are below a directory. -/
theorem Rewrites.below (h : t.Rewrites place old new t') (l : Location) :
    t'.below l = t.below l := by
  refine listing_eq (listing_sorted t t.wayBound l) fun names => ?_
  have hnodes := h.exists_node (l ++ names)
  exact mem_below.trans ((and_congr_right fun _ => hnodes).trans mem_below.symm)

end Unchanged

end DirDigest.FileTree
