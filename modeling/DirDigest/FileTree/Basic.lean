import DirDigest.Lookup
import DirDigest.Path

/-! # File trees

A file tree is a finite table from locations to nodes. A location is the list of names that leads
to it from the root of the tree; the parent of every location in the table is a directory.

* `Node`, `Location`, `FileTree`: the table, with its laws as fields.
* `FileTree.node?`, `FileTree.children`: the node at a location, and the entries of a directory in
  byte order of their names.
* `FileTree.insert?`, `FileTree.replace?`, `FileTree.erase`: changes that keep the laws.
-/

set_option autoImplicit false

namespace DirDigest

/-- The names that lead to a node from the root. -/
abbrev Location := List Name

/-- What can be at a location. -/
inductive Node
  | file (content : Bytes)
  | directory
  | link (target : Path)
  deriving DecidableEq, Repr

/-- Whether a node is a directory. -/
def Node.isDirectory : Node → Bool
  | .directory => true
  | _ => false

/-- Whether a byte string can name an entry: it is not empty, no `.` or `..`, and holds neither a
slash nor a zero byte. -/
def IsName (n : Name) : Prop := n ≠ [] ∧ n ≠ [dot] ∧ n ≠ [dot, dot] ∧ slash ∉ n ∧ 0 ∉ n

instance (n : Name) : Decidable (IsName n) := by unfold IsName; infer_instance

/-- A file tree. -/
structure FileTree where
  nodes : List (Location × Node)
  /-- The directory at which relative paths start. -/
  home : Location
  distinct : (nodes.map Prod.fst).Nodup
  named : ∀ e ∈ nodes, e.1 ≠ [] ∧ ∀ n ∈ e.1, IsName n
  closed : ∀ e ∈ nodes, ∀ parent name, e.1 = parent ++ [name] →
    parent = [] ∨ (parent, Node.directory) ∈ nodes

namespace FileTree

/-- The tree with an empty root directory only. -/
def empty : FileTree where
  nodes := []
  home := []
  distinct := List.nodup_nil
  named := by simp
  closed := by simp

/-- The node at a location. The root is a directory. -/
def node? (t : FileTree) (l : Location) : Option Node :=
  if l = [] then some .directory else t.nodes.lookup l

/-- Whether there is a directory at a location. -/
def isDirectory (t : FileTree) (l : Location) : Bool := t.node? l == some .directory

/-! ## Directories -/

/-- The last name of a location below a directory, if it is an entry of the directory. -/
def nameIn? (directory l : Location) : Option Name :=
  match l.getLast? with
  | some n => if l.dropLast = directory then some n else none
  | none => none

/-- Whether a name does not come after another one. -/
def nameNotAfter (a b : Name × Node) : Bool := decide (a.1 ≤ b.1)

/-- The entries of a directory, in byte order of their names. -/
def children (t : FileTree) (l : Location) : List (Name × Node) :=
  (t.nodes.filterMap fun e => (nameIn? l e.1).map fun n => (n, e.2)).mergeSort nameNotAfter

/-! ## Laws of the table -/

theorem mem_nodes_iff (t : FileTree) {l : Location} {n : Node} (hl : l ≠ []) :
    (l, n) ∈ t.nodes ↔ t.node? l = some n := by
  simp only [node?, hl, if_false]
  exact ⟨lookup_of_mem t.distinct, mem_of_lookup⟩

theorem directory_mem (t : FileTree) {l : Location} (h : t.isDirectory l = true) :
    l = [] ∨ (l, Node.directory) ∈ t.nodes := by
  by_cases hl : l = []
  · exact .inl hl
  · exact .inr ((t.mem_nodes_iff hl).2 (beq_iff_eq.1 h))

theorem names_of_directory (t : FileTree) {l : Location} (h : t.isDirectory l = true) :
    ∀ n ∈ l, IsName n := by
  rcases t.directory_mem h with rfl | hm
  · simp
  · exact (t.named _ hm).2

/-! ## Changes -/

/-- The tree with a new node in a directory. -/
def insert? (t : FileTree) (parent : Location) (name : Name) (node : Node) : Option FileTree :=
  if h : t.isDirectory parent = true ∧ IsName name ∧ t.node? (parent ++ [name]) = none then
    some {
      nodes := t.nodes ++ [(parent ++ [name], node)]
      home := t.home
      distinct := by
        have hnone : t.nodes.lookup (parent ++ [name]) = none := by simpa [node?] using h.2.2
        simp only [List.map_append, List.map_cons, List.map_nil]
        refine List.nodup_append.2 ⟨t.distinct, by simp, fun a ha b hb => ?_⟩
        rw [List.mem_singleton.1 hb]
        exact fun e => notMem_of_lookup_eq_none hnone (e ▸ ha)
      named := by
        intro e he
        rcases List.mem_append.1 he with he | he
        · exact t.named e he
        · rw [List.mem_singleton.1 he]
          refine ⟨by simp, fun n hn => ?_⟩
          rcases List.mem_append.1 hn with hn | hn
          · exact t.names_of_directory h.1 n hn
          · rw [List.mem_singleton.1 hn]; exact h.2.1
      closed := by
        intro e he p n hp
        rcases List.mem_append.1 he with he | he
        · exact (t.closed e he p n hp).imp id (List.mem_append_left _)
        · rw [List.mem_singleton.1 he] at hp
          have hpar : parent = p := (List.append_inj' hp rfl).1
          exact hpar ▸ (t.directory_mem h.1).imp id (List.mem_append_left _) }
  else none

/-- The entries of a table with another node at a location. -/
def setNode (l : Location) (node : Node) (e : Location × Node) : Location × Node :=
  if e.1 = l then (l, node) else e

@[simp] theorem setNode_fst (l : Location) (node : Node) (e : Location × Node) :
    (setNode l node e).1 = e.1 := by
  unfold setNode
  split
  · rename_i h; exact h.symm
  · rfl

/-- The tree with another node in the place of a file or link. -/
def replace? (t : FileTree) (l : Location) (node : Node) : Option FileTree :=
  if h : t.isDirectory l = false then
    some {
      nodes := t.nodes.map (setNode l node)
      home := t.home
      distinct := by
        have hfst : (t.nodes.map (setNode l node)).map Prod.fst = t.nodes.map Prod.fst := by
          simp [List.map_map, Function.comp_def]
        exact hfst ▸ t.distinct
      named := by
        intro e he
        obtain ⟨old, hold, rfl⟩ := List.mem_map.1 he
        simpa using t.named old hold
      closed := by
        intro e he p n hp
        obtain ⟨old, hold, rfl⟩ := List.mem_map.1 he
        rw [setNode_fst] at hp
        rcases t.closed old hold p n hp with h' | h'
        · exact .inl h'
        · refine .inr (List.mem_map.2 ⟨_, h', ?_⟩)
          have hne : p ≠ l := by
            rintro rfl
            by_cases hp0 : p = []
            · simp [isDirectory, node?, hp0] at h
            · simp [isDirectory, (t.mem_nodes_iff hp0).1 h'] at h
          simp [setNode, hne] }
  else none

/-- The tree without the node at a location and all that is below it. -/
def erase (t : FileTree) (l : Location) : FileTree where
  nodes := t.nodes.filter fun e => !l.isPrefixOf e.1
  home := t.home
  distinct := t.distinct.sublist (List.filter_sublist.map _)
  named e he := t.named e (List.mem_filter.1 he).1
  closed := by
    intro e he p n hp
    have hmem := List.mem_filter.1 he
    rcases t.closed e hmem.1 p n hp with h | h
    · exact .inl h
    · refine .inr (List.mem_filter.2 ⟨h, ?_⟩)
      cases hb : l.isPrefixOf p with
      | false => rfl
      | true =>
        have hpre : l <+: e.1 :=
          hp ▸ (List.isPrefixOf_iff_prefix.1 hb).trans (List.prefix_append p [n])
        have hout := hmem.2
        rw [List.isPrefixOf_iff_prefix.2 hpre] at hout
        cases hout

/-- The tree with another starting point for relative paths. -/
def withHome (t : FileTree) (l : Location) : FileTree := { t with home := l }

end FileTree

end DirDigest
