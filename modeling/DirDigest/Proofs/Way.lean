import DirDigest.Proofs.Walk
import Mathlib.Data.List.Perm.Subperm
import Mathlib.Tactic.Ring

/-! # The ways of a walk

A walk that follows links goes on from a directory to the real directories in it, and to the
directories that its links lead to, as long as these are not on the way already.

* `encounter`, `encounter_cases`, `encounter_enters`: what a walk makes of one entry, its item and
  the directory that is entered there.
* `Way`: the chains of directories that a walk enters, and which of them it enters through links.
* `Way.links_nodup`, `Way.length_le_wayBound`: a way is bounded, since no directory is entered
  through a link twice on it, and between two links it only goes down.
-/

set_option autoImplicit false

namespace DirDigest.FileTree

variable {t : FileTree} {follow : Bool} {here : Ancestor} {above : List Ancestor}

/-! ## One entry -/

/-- What a walk makes of an entry: its item, and the directory that is entered there, if any. -/
structure Encounter where
  item : WalkItem
  entered : Option Ancestor

/-- What a walk makes of an entry of the directory `here`, which it came to through `above`. -/
def encounter (t : FileTree) (follow : Bool) (here : Ancestor) (above : List Ancestor)
    (entry : Name × Node) : Encounter :=
  let child := here.path.join ⟨entry.1⟩
  match entry.2 with
  | .file _ => ⟨.ok child, none⟩
  | .directory => ⟨.ok child, some ⟨here.location ++ [entry.1], child⟩⟩
  | .link _ =>
    if !follow then ⟨.ok child, none⟩
    else
      match t.resolve true child with
      | .error cause => ⟨.error (.io child cause), none⟩
      | .ok l =>
        if t.isDirectory l then
          match (here :: above).find? fun a => a.location == l with
          | some a => ⟨.error (.loop child a.path), none⟩
          | none => ⟨.ok child, some ⟨l, child⟩⟩
        else ⟨.ok child, none⟩

theorem visit_succ (t : FileTree) (follow : Bool) (fuel : Nat) (here : Ancestor)
    (above : List Ancestor) :
    t.visit follow (fuel + 1) (here :: above) =
      if pathLimit ≤ here.path.bytes.length then
        [.error (.io here.path (.system .nameTooLong))]
      else
        (t.children here.location).flatMap fun e =>
          (t.encounter follow here above e).item ::
            (t.encounter follow here above e).entered.elim []
              fun next => t.visit follow fuel (next :: here :: above) := by
  rw [visit]
  refine if_congr Iff.rfl rfl (List.flatMap_congr fun e _ => ?_)
  obtain ⟨n, node⟩ := e
  unfold encounter
  cases node with
  | file content => rfl
  | directory => rfl
  | link target =>
    cases follow with
    | false => rfl
    | true =>
      cases hr : t.resolve true (here.path.join ⟨n⟩) with
      | error cause => simp [hr]
      | ok l =>
        cases hd : t.isDirectory l with
        | false => simp [hr, hd]
        | true =>
          cases hf : (here :: above).find? fun a => a.location == l with
          | none => simp [hr, hd, hf]
          | some a => simp [hr, hd, hf]

/-- Whether the entry `n` of a directory is a link that leads to the directory at `l`. -/
structure LinksTo (t : FileTree) (here : Ancestor) (n : Name) (l : Location) : Prop where
  link : ∃ target, t.node? (here.location ++ [n]) = some (.link target)
  resolves : t.resolve true (here.path.join ⟨n⟩) = .ok l
  directory : t.isDirectory l = true

/-- Whether a link leads back to a directory on the way to it; `a` is the last one at that place. -/
def LinksBack (t : FileTree) (here : Ancestor) (above : List Ancestor) (n : Name) (a : Ancestor) :
    Prop :=
  t.LinksTo here n a.location ∧ ∃ nearer farther, here :: above = nearer ++ a :: farther ∧
    ∀ b ∈ nearer, b.location ≠ a.location

section Entry
variable {e : Name × Node} {l : Location} {n : Name} {a : Ancestor}

theorem find?_location_eq_none {chain : List Ancestor} :
    chain.find? (fun a => a.location == l) = none ↔ ∀ a ∈ chain, a.location ≠ l := by
  simp only [List.find?_eq_none, beq_iff_eq, ne_eq]

theorem find?_location_eq_some {chain : List Ancestor} :
    chain.find? (fun a => a.location == l) = some a ↔ a.location = l ∧
      ∃ nearer farther, chain = nearer ++ a :: farther ∧ ∀ b ∈ nearer, b.location ≠ l := by
  simp only [List.find?_eq_some_iff_append, beq_iff_eq, Bool.not_eq_true', beq_eq_false_iff_ne]

theorem encounter_directory (follow : Bool) (above : List Ancestor)
    (h : t.node? (here.location ++ [n]) = some .directory) :
    ∃ e ∈ t.children here.location, t.encounter follow here above e =
      ⟨.ok (here.path.join ⟨n⟩), some ⟨here.location ++ [n], here.path.join ⟨n⟩⟩⟩ :=
  ⟨(n, .directory), mem_children.2 h, rfl⟩

theorem encounter_link (h : t.LinksTo here n l) (hnew : ∀ a ∈ here :: above, a.location ≠ l) :
    ∃ e ∈ t.children here.location, t.encounter true here above e =
      ⟨.ok (here.path.join ⟨n⟩), some ⟨l, here.path.join ⟨n⟩⟩⟩ := by
  obtain ⟨target, hnode⟩ := h.link
  have hfind := find?_location_eq_none.2 hnew
  refine ⟨(n, .link target), mem_children.2 hnode, ?_⟩
  simp [encounter, h.resolves, h.directory, hfind]

theorem encounter_loop (h : t.LinksBack here above n a) :
    ∃ e ∈ t.children here.location, t.encounter true here above e =
      ⟨.error (.loop (here.path.join ⟨n⟩) a.path), none⟩ := by
  obtain ⟨hl, hlast⟩ := h
  obtain ⟨target, hnode⟩ := hl.link
  have hfind := find?_location_eq_some.2 ⟨rfl, hlast⟩
  refine ⟨(n, .link target), mem_children.2 hnode, ?_⟩
  simp [encounter, hl.resolves, hl.directory, hfind]

/-- What can come of an entry: the directory there is entered, the entry is listed only, it cannot
be resolved, or it leads back. -/
theorem encounter_cases (he : e ∈ t.children here.location) (follow : Bool)
    (above : List Ancestor) :
    (∃ l, t.encounter follow here above e =
        ⟨.ok (here.path.join ⟨e.1⟩), some ⟨l, here.path.join ⟨e.1⟩⟩⟩ ∧
      (t.node? (here.location ++ [e.1]) = some .directory ∧ l = here.location ++ [e.1] ∨
        follow = true ∧ t.LinksTo here e.1 l ∧ ∀ a ∈ here :: above, a.location ≠ l)) ∨
    t.encounter follow here above e = ⟨.ok (here.path.join ⟨e.1⟩), none⟩ ∨
    (∃ cause, t.encounter follow here above e =
        ⟨.error (.io (here.path.join ⟨e.1⟩) cause), none⟩) ∨
    ∃ a, t.encounter follow here above e =
        ⟨.error (.loop (here.path.join ⟨e.1⟩) a.path), none⟩ ∧
      follow = true ∧ t.LinksBack here above e.1 a := by
  obtain ⟨n, node⟩ := e
  have hnode := mem_children.1 he
  cases node with
  | file content => exact .inr (.inl rfl)
  | directory => exact .inl ⟨here.location ++ [n], rfl, .inl ⟨hnode, rfl⟩⟩
  | link target =>
    cases follow with
    | false => exact .inr (.inl rfl)
    | true =>
      cases hr : t.resolve true (here.path.join ⟨n⟩) with
      | error cause => exact .inr (.inr (.inl ⟨cause, by simp [encounter, hr]⟩))
      | ok l =>
        cases hd : t.isDirectory l with
        | false => exact .inr (.inl (by simp [encounter, hr, hd]))
        | true =>
          cases hf : (here :: above).find? fun a => a.location == l with
          | none =>
            have hnew := find?_location_eq_none.1 hf
            exact .inl ⟨l, by simp [encounter, hr, hd, hf],
              .inr ⟨rfl, ⟨⟨target, hnode⟩, hr, hd⟩, hnew⟩⟩
          | some a =>
            obtain ⟨rfl, hlast⟩ := find?_location_eq_some.1 hf
            exact .inr (.inr (.inr ⟨a, by simp [encounter, hr, hd, hf], rfl,
              ⟨⟨target, hnode⟩, hr, hd⟩, hlast⟩))

/-- What is entered at an entry: a directory there, or one that a link there leads to. It has the
path of the entry, which is listed. -/
theorem encounter_enters (he : e ∈ t.children here.location) {next : Ancestor}
    (hnext : (t.encounter follow here above e).entered = some next) :
    next.path = here.path.join ⟨e.1⟩ ∧ (t.encounter follow here above e).item = .ok next.path ∧
      (t.node? (here.location ++ [e.1]) = some .directory ∧
          next.location = here.location ++ [e.1] ∨
        follow = true ∧ t.LinksTo here e.1 next.location ∧
          ∀ a ∈ here :: above, a.location ≠ next.location) := by
  rcases encounter_cases he follow above with
    ⟨l, hmeet, hentered⟩ | hmeet | ⟨cause, hmeet⟩ | ⟨a, hmeet, -⟩
  · rw [hmeet] at hnext ⊢
    cases hnext
    exact ⟨rfl, rfl, hentered⟩
  · rw [hmeet] at hnext
    cases hnext
  · rw [hmeet] at hnext
    cases hnext
  · rw [hmeet] at hnext
    cases hnext

end Entry

/-! ## Ways -/

/-- The chains of directories that a walk enters below the chain `base`, each with the places of the
directories that it enters through links, the last one first. -/
inductive Way (t : FileTree) (follow : Bool) (base : List Ancestor) :
    List Ancestor → List Location → Prop
  | start : Way t follow base base []
  | directory {here : Ancestor} {above : List Ancestor} {links : List Location} {n : Name}
    (way : Way t follow base (here :: above) links) (hread : here.path.bytes.length < pathLimit)
    (hnode : t.node? (here.location ++ [n]) = some .directory) :
    Way t follow base (⟨here.location ++ [n], here.path.join ⟨n⟩⟩ :: here :: above) links
  | link {here : Ancestor} {above : List Ancestor} {links : List Location} {n : Name} {l : Location}
    (way : Way t follow base (here :: above) links) (hread : here.path.bytes.length < pathLimit)
    (hfollow : follow = true) (hlink : t.LinksTo here n l)
    (hnew : ∀ a ∈ here :: above, a.location ≠ l) :
    Way t follow base (⟨l, here.path.join ⟨n⟩⟩ :: here :: above) (l :: links)

section Ways
variable {base chain further : List Ancestor} {links more : List Location}

theorem Way.trans (h : Way t follow base chain links) (h' : Way t follow chain further more) :
    Way t follow base further (more ++ links) := by
  induction h' with
  | start => exact h
  | directory way hread hnode ih => exact .directory ih hread hnode
  | link way hread hfollow hlink hnew ih => exact .link ih hread hfollow hlink hnew

variable {start : Ancestor} (hstart : t.isDirectory start.location = true)
include hstart

theorem Way.directories (h : Way t follow [start] chain links) :
    ∀ a ∈ chain, t.isDirectory a.location = true := by
  induction h with
  | start => exact fun a ha => List.mem_singleton.1 ha ▸ hstart
  | directory way hread hnode ih =>
    refine List.forall_mem_cons.2 ⟨?_, ih⟩
    rw [isDirectory, hnode]
    exact beq_self_eq_true _
  | link way hread hfollow hlink hnew ih => exact List.forall_mem_cons.2 ⟨hlink.directory, ih⟩

omit hstart

theorem Way.places (h : Way t follow [start] chain links) :
    ∀ l ∈ links ++ [start.location], ∃ a ∈ chain, a.location = l := by
  induction h with
  | start =>
    intro l hl
    exact ⟨start, List.mem_cons_self, (List.mem_singleton.1 hl).symm⟩
  | directory way hread hnode ih =>
    intro l hl
    obtain ⟨a, ha, hal⟩ := ih l hl
    exact ⟨a, List.mem_cons_of_mem _ ha, hal⟩
  | link way hread hfollow hlink hnew ih =>
    refine List.forall_mem_cons.2 ⟨⟨_, List.mem_cons_self, rfl⟩, fun l hl => ?_⟩
    obtain ⟨a, ha, hal⟩ := ih l hl
    exact ⟨a, List.mem_cons_of_mem _ ha, hal⟩

/-- No directory is entered through a link twice on one way, nor is the one where it starts. -/
theorem Way.links_nodup (h : Way t follow [start] chain links) :
    (links ++ [start.location]).Nodup := by
  induction h with
  | start => exact List.nodup_singleton _
  | directory way hread hnode ih => exact ih
  | link way hread hfollow hlink hnew ih =>
    refine List.nodup_cons.2 ⟨fun hl => ?_, ih⟩
    obtain ⟨a, ha, hal⟩ := way.places _ hl
    exact hnew a ha hal

include hstart

theorem Way.links_length_le (h : Way t follow [start] chain links) :
    links.length ≤ t.nodes.length := by
  have hsub : links ++ [start.location] ⊆ [] :: t.nodes.map Prod.fst := by
    intro l hl
    obtain ⟨a, ha, rfl⟩ := h.places l hl
    rcases t.directory_mem (h.directories hstart a ha) with hnil | hmem
    · exact hnil ▸ List.mem_cons_self
    · exact List.mem_cons_of_mem _ (List.mem_map_of_mem (f := Prod.fst) hmem)
  have hle := (List.subperm_of_subset h.links_nodup hsub).length_le
  simpa using hle

/-- Between two links a way only goes down, and it cannot go down more than the tree is deep. -/
theorem Way.length_le (h : Way t follow [start] chain links) :
    ∃ here above, chain = here :: above ∧
      chain.length ≤ links.length * (t.depth + 1) + 1 + here.location.length := by
  induction h with
  | start => exact ⟨start, [], rfl, by simp⟩
  | @directory here above links n way hread hnode ih =>
    obtain ⟨_, _, heq, hle⟩ := ih
    cases heq
    refine ⟨_, _, rfl, ?_⟩
    simp only [List.length_cons, List.length_append, List.length_nil] at hle ⊢
    omega
  | @link here above links n l way hread hfollow hlink hnew ih =>
    obtain ⟨_, _, heq, hle⟩ := ih
    cases heq
    have hdepth : here.location.length ≤ t.depth :=
      length_le_depth (beq_iff_eq.1 (way.directories hstart here List.mem_cons_self))
    refine ⟨_, _, rfl, ?_⟩
    simp only [List.length_cons] at hle ⊢
    rw [Nat.succ_mul]
    omega

theorem Way.length_le_wayBound (h : Way t follow [start] chain links) :
    chain.length ≤ t.wayBound := by
  obtain ⟨here, above, rfl, hle⟩ := h.length_le hstart
  have hdepth : here.location.length ≤ t.depth :=
    length_le_depth (beq_iff_eq.1 (h.directories hstart here List.mem_cons_self))
  have hlinks : links.length * (t.depth + 1) ≤ t.nodes.length * (t.depth + 1) :=
    Nat.mul_le_mul_right _ (h.links_length_le hstart)
  have hbound : t.wayBound =
      t.nodes.length * (t.depth + 1) + t.nodes.length + 2 * (t.depth + 2) := by
    unfold wayBound
    ring
  omega

end Ways

end DirDigest.FileTree
