import DirDigest.FileTree.Basic

/-! # The table of a tree

* `isDirectory_of_below`, `names_below`: what is above a node is a directory, and what leads to it
  are names.
* `afterLeading?_append`: what is left of a location below a directory.
* `mem_nodes_below`: what is below a directory stands in the table.
* `ofTable`: the tree of a table in which every parent is a directory.
-/

set_option autoImplicit false

namespace DirDigest.FileTree

variable {t : FileTree} {l : Location}

theorem isDirectory_of_child {name : Name} {node : Node} (h : t.node? (l ++ [name]) = some node) :
    t.isDirectory l = true := by
  have hne : l ++ [name] ≠ [] := List.append_ne_nil_of_right_ne_nil l (List.cons_ne_nil name [])
  have hmem := (t.mem_nodes_iff hne).2 h
  rcases t.closed _ hmem l name rfl with rfl | hl
  · rfl
  · by_cases hnil : l = []
    · subst hnil
      rfl
    · rw [isDirectory, (t.mem_nodes_iff hnil).1 hl]
      rfl

theorem isDirectory_of_below {names : List Name} {node : Node} (hne : names ≠ [])
    (h : t.node? (l ++ names) = some node) : t.isDirectory l = true := by
  induction names generalizing l with
  | nil => exact absurd rfl hne
  | cons n rest ih =>
    by_cases hrest : rest = []
    · subst hrest
      exact isDirectory_of_child h
    · rw [List.append_cons] at h
      have hn := ih hrest h
      exact isDirectory_of_child (beq_iff_eq.1 hn)

theorem names_of_node {node : Node} (h : t.node? l = some node) : ∀ n ∈ l, IsName n := by
  by_cases hl : l = []
  · simp [hl]
  · exact (t.named _ ((t.mem_nodes_iff hl).2 h)).2

/-! ## Below a directory -/

theorem names_below {names : List Name} {node : Node} (h : t.node? (l ++ names) = some node) :
    ∀ n ∈ names, IsName n := fun n hn => names_of_node h n (List.mem_append_right l hn)

theorem afterLeading?_eq_some {α : Type} [DecidableEq α] {leading whole rest : List α} :
    afterLeading? leading whole = some rest ↔ whole = leading ++ rest := by
  induction leading generalizing whole with
  | nil => simp [afterLeading?]
  | cons a leading ih =>
    cases whole with
    | nil => simp [afterLeading?]
    | cons b whole =>
      rw [afterLeading?, List.cons_append, List.cons.injEq, ← ih]
      by_cases hb : a = b
      · simp [hb]
      · simp [hb, Ne.symm hb]

theorem afterLeading?_append {α : Type} [DecidableEq α] (leading rest : List α) :
    afterLeading? leading (leading ++ rest) = some rest := afterLeading?_eq_some.2 rfl

/-- What is below a directory stands in the table, under a location that leads on from there. -/
theorem mem_nodes_below {names : List Name} {node : Node} (hne : names ≠ [])
    (h : t.node? (l ++ names) = some node) :
    (l ++ names, node) ∈ t.nodes ∧ names ∈ afterLeading? l (l ++ names) :=
  ⟨(t.mem_nodes_iff (List.append_ne_nil_of_right_ne_nil l hne)).2 h, afterLeading?_append l names⟩

/-- The tree of a table in which every parent is a directory. -/
def ofTable (nodes : List (Location × Node)) (distinct : (nodes.map Prod.fst).Nodup)
    (named : ∀ e ∈ nodes, e.1 ≠ [] ∧ ∀ n ∈ e.1, IsName n)
    (parents : ∀ e ∈ nodes, e.1.dropLast = [] ∨ (e.1.dropLast, Node.directory) ∈ nodes) :
    FileTree where
  nodes := nodes
  home := []
  distinct := distinct
  named := named
  closed e he parent name h := by
    have hparent := parents e he
    rwa [h, List.dropLast_concat] at hparent

end DirDigest.FileTree
