import DirDigest.Proofs.FileTree.Rewrite

/-! # A file in the place of a link

A link that leads to a file is replaced by a file with the same content. What leads through the link
leads to the new file then, with one link less on its way.

* `LinksToFile`, `linksToFile_of_path`: a link that leads to a file, as told by any path to it.
* `CopiesLink`, `copiesLink_replace`: two trees that differ in such a replacement.
* `CopiesLink.resolveFrom`, `CopiesLink.stat`: what a path leads to in the second tree.
* `CopiesLink.children`: the entries of its directories.
-/

set_option autoImplicit false

namespace DirDigest.FileTree

/-- Whether the entry `n` of the directory `base` is a link that leads to a file. -/
structure LinksToFile (t : FileTree) (base : Location) (n : Name) (target : Path)
    (content : Bytes) : Prop where
  link : t.node? (base ++ [n]) = some (.link target)
  leads : ∃ links source, t.resolveFrom true links (start base target) (segments target) =
    .ok source ∧ t.node? source = some (.file content)

/-- Whether two trees are the same but for a link that leads to a file, in whose place the second
one has a file of that content. -/
structure CopiesLink (t : FileTree) (base : Location) (n : Name) (target : Path) (content : Bytes)
    (t' : FileTree) : Prop extends LinksToFile t base n target content where
  home : t'.home = t.home
  file : t'.node? (base ++ [n]) = some (.file content)
  others : ∀ l, l ≠ base ++ [n] → t'.node? l = t.node? l

section Links
variable {t : FileTree} {target : Path} {content : Bytes}

theorem linksToFile_of_resolveFrom {links : Nat} {l place source : Location} {steps : List Bytes}
    (hplace : t.resolveFrom false links l steps = .ok place)
    (hlink : t.node? place = some (.link target))
    (hsource : t.resolveFrom true links l steps = .ok source)
    (hfile : t.node? source = some (.file content)) :
    ∃ base n, place = base ++ [n] ∧ t.LinksToFile base n target content := by
  induction links using Nat.strongRecOn generalizing l steps with
  | ind links ih =>
    rcases advance_unfollowed t l steps with hsame | ⟨base, n, next, hfollowed, hat, hnext⟩
    · cases ha : t.advance true l steps with
      | error e =>
        rw [resolveFrom_error ha] at hsource
        cases hsource
      | ok arrival =>
        rw [ha] at hsame
        cases arrival with
        | «at» l' =>
          -- both end at the same place, which is no link and a file at the same time
          rw [resolveFrom_at ha] at hsource
          rw [resolveFrom_at hsame] at hplace
          cases hsource
          cases hplace
          rw [hlink] at hfile
          cases hfile
        | link base next rest =>
          obtain ⟨left, rfl, hsource'⟩ := resolveFrom_through ha hsource
          obtain ⟨left', heq, hplace'⟩ := resolveFrom_through hsame hplace
          obtain rfl : left = left' := Nat.succ.inj heq
          exact ih left (Nat.lt_succ_self left) hplace' hsource'
    · rw [resolveFrom_at hat] at hplace
      cases hplace
      obtain rfl : next = target := by
        rw [hnext] at hlink
        cases hlink
        rfl
      obtain ⟨left, -, hsource'⟩ := resolveFrom_through hfollowed hsource
      rw [List.append_nil] at hsource'
      exact ⟨base, n, rfl, hnext, left, source, hsource', hfile⟩

/-- A path that ends at a link and leads to a file tells where the link leads. -/
theorem linksToFile_of_path {p : Path} {place : Location} (hplace : t.resolve false p = .ok place)
    (hlink : t.node? place = some (.link target)) (hfile : t.stat p = .ok (.file content)) :
    ∃ base n, place = base ++ [n] ∧ t.LinksToFile base n target content := by
  obtain ⟨source, hsource, hnode⟩ := nodeAt_iff.1 hfile
  exact linksToFile_of_resolveFrom (resolve_iff.1 hplace).2 hlink (resolve_iff.1 hsource).2 hnode

theorem copiesLink_replace {base : Location} {n : Name} (h : t.LinksToFile base n target content) :
    ∃ t', t.replace? (base ++ [n]) (.file content) = some t' ∧
      t.CopiesLink base n target content t' := by
  have hd : t.isDirectory (base ++ [n]) = false := by simp [isDirectory, h.link]
  obtain ⟨t', ht'⟩ : ∃ t', t.replace? (base ++ [n]) (.file content) = some t' :=
    ⟨_, dif_pos hd⟩
  obtain ⟨hhome, hnodes⟩ := node?_replace ht'
  refine ⟨t', ht', h, hhome, ?_, fun l hl => ?_⟩
  · rw [hnodes, if_pos rfl, h.link]
    rfl
  · rw [hnodes, if_neg hl]

end Links

namespace CopiesLink
variable {t t' : FileTree} {base : Location} {n : Name} {target : Path} {content : Bytes}

/-! ## Paths -/

section Resolving
variable (h : t.CopiesLink base n target content t')
include h

/-- Steps lead the same way in both trees, except that those which come to the link go on from the
file. -/
theorem advance (follow : Bool) (l : Location) (steps : List Bytes) :
    t'.advance follow l steps = t.advance follow l steps ∨
    ∃ rest, t.advance follow l steps = .ok (.link base target rest) ∧
      (rest ≠ [] ∨ follow = true) ∧
      t'.advance follow l steps = t'.advance follow (base ++ [n]) rest := by
  induction steps generalizing l with
  | nil => exact .inl rfl
  | cons segment rest ih =>
    rw [FileTree.advance, FileTree.advance]
    by_cases hl : l = base ++ [n]
    · left
      rw [hl, h.link, h.file]
    · rw [h.others l hl]
      cases t.node? l with
      | none => exact .inl rfl
      | some node =>
        cases node with
        | file content => exact .inl rfl
        | link target => exact .inl rfl
        | directory =>
          dsimp only
          split
          · exact ih l
          · split
            · exact ih l.dropLast
            · split
              · exact .inl rfl
              · by_cases hnext : l ++ [segment] = base ++ [n]
                · obtain ⟨rfl, hname⟩ := List.append_inj' hnext rfl
                  obtain rfl : segment = n := (List.cons.inj hname).1
                  rw [h.link, h.file]
                  dsimp only
                  by_cases hfollow : rest ≠ [] ∨ follow = true
                  · rw [if_pos hfollow]
                    exact .inr ⟨rest, rfl, hfollow, rfl⟩
                  · obtain ⟨hrest, -⟩ := not_or.1 hfollow
                    rw [if_neg hfollow, not_not.1 hrest]
                    exact .inl rfl
                · rw [h.others _ hnext]
                  cases t.node? (l ++ [segment]) with
                  | none => exact .inl rfl
                  | some child =>
                    cases child with
                    | file content => exact ih (l ++ [segment])
                    | directory => exact ih (l ++ [segment])
                    | link target => exact .inl rfl

/-- Behind the link nothing is found, since it leads to a file. -/
theorem ends_at_link {links : Nat} {rest : List Bytes} {follow : Bool} {dest : Location}
    (hrest : rest ≠ [] ∨ follow = true)
    (hdest : t.resolveFrom follow links (start base target) (segments target ++ rest) = .ok dest) :
    rest = [] ∧ t.node? dest = some (.file content) := by
  obtain ⟨more, source, hsource, hfile⟩ := h.leads
  by_cases hnil : rest = []
  · subst hnil
    obtain rfl : follow = true := hrest.resolve_left (not_not_intro rfl)
    rw [List.append_nil] at hdest
    exact ⟨rfl, resolveFrom_unique hdest hsource ▸ hfile⟩
  · rcases leadsOn t links (start base target) (segments target) with
      ⟨e, -, hmore⟩ | ⟨l', left, hl', hmore⟩
    · rw [hmore follow rest hnil] at hdest
      cases hdest
    · obtain rfl : l' = source := resolveFrom_unique hl' hsource
      obtain ⟨segment, rest, rfl⟩ := List.exists_cons_of_ne_nil hnil
      have hstop : t.advance follow l' (segment :: rest) = .error .notDirectory := by
        rw [FileTree.advance, hfile]
      rw [hmore follow _ hnil, resolveFrom_error hstop] at hdest
      cases hdest

/-- A path leads to the same place, or it leads to the file in the place of the link where it has
led through the link to a file of the same content. -/
theorem resolveFrom {follow : Bool} {links : Nat} {l dest : Location} {steps : List Bytes}
    (hdest : t.resolveFrom follow links l steps = .ok dest) :
    t'.resolveFrom follow links l steps = .ok dest ∨
    t'.resolveFrom follow links l steps = .ok (base ++ [n]) ∧
      t.node? dest = some (.file content) := by
  induction links using Nat.strongRecOn generalizing l steps with
  | ind links ih =>
    rcases h.advance follow l steps with hsame | ⟨rest, hlink, hrest, hcopy⟩
    · cases ha : t.advance follow l steps with
      | error e =>
        rw [resolveFrom_error ha] at hdest
        cases hdest
      | ok arrival =>
        rw [ha] at hsame
        cases arrival with
        | «at» l' =>
          rw [resolveFrom_at ha] at hdest
          exact .inl ((resolveFrom_at hsame).trans hdest)
        | link other next rest =>
          obtain ⟨left, rfl, hleft⟩ := resolveFrom_through ha hdest
          have hnext : t'.resolveFrom follow (left + 1) l steps =
              t'.resolveFrom follow left (start other next) (segments next ++ rest) := by
            simp only [FileTree.resolveFrom, hsame]
          rw [hnext]
          exact ih left (Nat.lt_succ_self left) hleft
    · obtain ⟨left, -, hleft⟩ := resolveFrom_through hlink hdest
      obtain ⟨rfl, hfile⟩ := h.ends_at_link hrest hleft
      exact .inr ⟨resolveFrom_at hcopy, hfile⟩

theorem isDirectory (l : Location) : t'.isDirectory l = t.isDirectory l := by
  by_cases hl : l = base ++ [n]
  · rw [hl, FileTree.isDirectory, FileTree.isDirectory, h.link, h.file]
    rfl
  · rw [FileTree.isDirectory, FileTree.isDirectory, h.others l hl]

/-- What a path leads to is a directory in both trees or in none, and if it is one it is the same
directory. -/
theorem resolve {follow : Bool} {p : Path} {l : Location} (hl : t.resolve follow p = .ok l) :
    ∃ l', t'.resolve follow p = .ok l' ∧ t'.isDirectory l' = t.isDirectory l ∧
      (t.isDirectory l = true → l' = l) := by
  obtain ⟨hsearchable, hfrom⟩ := resolve_iff.1 hl
  rw [← h.home] at hfrom
  rcases h.resolveFrom hfrom with hsame | ⟨hcopy, hfile⟩
  · exact ⟨l, resolve_iff.2 ⟨hsearchable, hsame⟩, h.isDirectory l, fun _ => rfl⟩
  · have hd : t.isDirectory l = false := by simp [FileTree.isDirectory, hfile]
    have hd' : t'.isDirectory (base ++ [n]) = false := by simp [FileTree.isDirectory, h.file]
    refine ⟨base ++ [n], resolve_iff.2 ⟨hsearchable, hcopy⟩, hd'.trans hd.symm, fun htrue => ?_⟩
    rw [hd] at htrue
    cases htrue

/-- What is found at the end of a path stays, whether the path leads through the link or not. -/
theorem stat {p : Path} {node : Node} (hs : t.stat p = .ok node) : t'.stat p = .ok node := by
  obtain ⟨l, hl, hnode⟩ := nodeAt_iff.1 hs
  obtain ⟨hsearchable, hfrom⟩ := resolve_iff.1 hl
  rw [← h.home] at hfrom
  rcases h.resolveFrom hfrom with hsame | ⟨hcopy, hfile⟩
  · have hne : l ≠ base ++ [n] := by
      rintro rfl
      rw [h.link] at hnode
      cases hnode
      exact stat_ne_link p target hs
    exact nodeAt_iff.2 ⟨l, resolve_iff.2 ⟨hsearchable, hsame⟩, (h.others l hne).trans hnode⟩
  · rw [hnode] at hfile
    cases hfile
    exact nodeAt_iff.2 ⟨base ++ [n], resolve_iff.2 ⟨hsearchable, hcopy⟩, h.file⟩

end Resolving

/-! ## Entries -/

/-- An entry of a directory after the link is replaced. -/
def entry (base : Location) (n : Name) (content : Bytes) (l : Location) (e : Name × Node) :
    Name × Node := if l ++ [e.1] = base ++ [n] then (e.1, .file content) else e

@[simp] theorem entry_fst (l : Location) (e : Name × Node) :
    (entry base n content l e).1 = e.1 := by
  unfold entry
  split
  · rfl
  · rfl

theorem children (h : t.CopiesLink base n target content t') (l : Location) :
    t'.children l = (t.children l).map (entry base n content l) := by
  have hantisymm : Std.Antisymm fun a b : Name × Node => a.1 < b.1 :=
    ⟨fun a b hab hba => absurd (List.lt_trans hab hba) (List.lt_irrefl a.1)⟩
  have hirrefl : Std.Irrefl fun a b : Name × Node => a.1 < b.1 := ⟨fun a => List.lt_irrefl a.1⟩
  have hsorted : ((t.children l).map (entry base n content l)).Pairwise fun a b => a.1 < b.1 := by
    simpa [List.pairwise_map] using children_sorted t l
  refine (children_sorted t' l).eq_of_mem_iff hsorted fun {e} => ?_
  obtain ⟨m, node⟩ := e
  rw [mem_children, List.mem_map]
  constructor
  · intro hnode
    by_cases hplace : l ++ [m] = base ++ [n]
    · refine ⟨(m, .link target), mem_children.2 (hplace ▸ h.link), ?_⟩
      rw [hplace, h.file] at hnode
      cases hnode
      exact if_pos hplace
    · rw [h.others _ hplace] at hnode
      exact ⟨(m, node), mem_children.2 hnode, if_neg hplace⟩
  · rintro ⟨⟨first, child⟩, he, heq⟩
    have hnode := mem_children.1 he
    unfold entry at heq
    by_cases hplace : l ++ [first] = base ++ [n]
    · rw [if_pos hplace] at heq
      cases heq
      rw [hplace]
      exact h.file
    · rw [if_neg hplace] at heq
      cases heq
      rw [h.others _ hplace]
      exact hnode

end CopiesLink

end DirDigest.FileTree
