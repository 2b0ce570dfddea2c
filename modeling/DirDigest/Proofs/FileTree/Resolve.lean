import DirDigest.Proofs.FileTree.Table
import DirDigest.Proofs.Path

/-! # Where extended paths lead

* `advance_append`, `leadsOn`: a path leads on from where its first steps lead.
* `resolveFrom_steps`: a path that is resolved leads on, whether it ends in a slash or not.
* `advance_names`: names lead down the tree.
* `resolveFrom_unique`, `resolveFrom_settled`: where a path leads is told by its links, and is none.
* `lstat_of_stat`, `stat_ne_link`: what can be followed can be looked at, and ends at no link.
* `resolve_extend`, `nodeAt_extend`: where a root path continued by names leads, and what is there.
-/

set_option autoImplicit false

namespace DirDigest.FileTree

variable {t : FileTree} {l : Location}

/-! ## Continued paths -/

theorem advance_append (t : FileTree) (follow : Bool) (l : Location) (steps : List Bytes)
    {more : List Bytes} (hmore : more ≠ []) :
    t.advance follow l (steps ++ more) =
      match t.advance true l steps with
      | .error e => .error e
      | .ok (.at l') => t.advance follow l' more
      | .ok (.link base target rest) => .ok (.link base target (rest ++ more)) := by
  induction steps generalizing l with
  | nil => rfl
  | cons segment rest ih =>
    have hrest : rest ++ more ≠ [] := List.append_ne_nil_of_right_ne_nil rest hmore
    rw [List.cons_append, advance, advance]
    cases t.node? l with
    | none => rfl
    | some node =>
      cases node with
      | file content => rfl
      | link target => rfl
      | directory =>
        dsimp only
        split
        · exact ih l
        · split
          · exact ih l.dropLast
          · split
            · rfl
            · cases t.node? (l ++ [segment]) with
              | none => rfl
              | some child =>
                cases child with
                | file content => exact ih (l ++ [segment])
                | directory => exact ih (l ++ [segment])
                | link target =>
                  -- with more steps behind it a link is followed in any case
                  dsimp only
                  rw [if_pos (.inl hrest), if_pos (.inr rfl)]

/-- Whether the steps after the first ones go on from where the first ones lead, with the links that
are left, or fail as the first ones do. -/
def LeadsOn (t : FileTree) (links : Nat) (l : Location) (steps : List Bytes) : Prop :=
  (∃ e, t.resolveFrom true links l steps = .error e ∧
    ∀ follow more, more ≠ [] → t.resolveFrom follow links l (steps ++ more) = .error e) ∨
  ∃ l' left, t.resolveFrom true links l steps = .ok l' ∧
    ∀ follow more, more ≠ [] →
      t.resolveFrom follow links l (steps ++ more) = t.resolveFrom follow left l' more

section Resolving
variable {follow : Bool} {links : Nat} {steps : List Bytes}

theorem resolveFrom_error {e : Errno} (h : t.advance follow l steps = .error e) :
    t.resolveFrom follow links l steps = .error e := by
  cases links <;> simp only [resolveFrom, h]

theorem resolveFrom_at {l' : Location} (h : t.advance follow l steps = .ok (.at l')) :
    t.resolveFrom follow links l steps = .ok l' := by
  cases links <;> simp only [resolveFrom, h]

theorem resolveFrom_congr {l' : Location} {steps' : List Bytes}
    (h : t.advance follow l steps = t.advance follow l' steps') :
    t.resolveFrom follow links l steps = t.resolveFrom follow links l' steps' := by
  cases links <;> simp only [resolveFrom, h]

theorem leadsOn_error {e : Errno} (h : t.advance true l steps = .error e) :
    t.LeadsOn links l steps := by
  refine .inl ⟨e, resolveFrom_error h, fun follow more hmore => resolveFrom_error ?_⟩
  rw [advance_append t follow l steps hmore, h]

theorem leadsOn_at {l' : Location} (h : t.advance true l steps = .ok (.at l')) :
    t.LeadsOn links l steps := by
  refine .inr ⟨l', links, resolveFrom_at h, fun follow more hmore => resolveFrom_congr ?_⟩
  rw [advance_append t follow l steps hmore, h]

theorem leadsOn_link_zero {base : Location} {target : Path} {rest : List Bytes}
    (h : t.advance true l steps = .ok (.link base target rest)) : t.LeadsOn 0 l steps := by
  refine .inl ⟨.tooManyLinks, ?_, fun follow more hmore => ?_⟩
  · simp only [resolveFrom, h]
  · simp only [resolveFrom, advance_append t follow l steps hmore, h]

theorem leadsOn_link_succ {base : Location} {target : Path} {rest : List Bytes}
    (h : t.advance true l steps = .ok (.link base target rest))
    (hnext : t.LeadsOn links (start base target) (segments target ++ rest)) :
    t.LeadsOn (links + 1) l steps := by
  have hfirst : t.resolveFrom true (links + 1) l steps =
      t.resolveFrom true links (start base target) (segments target ++ rest) := by
    simp only [resolveFrom, h]
  have hlater : ∀ follow more, more ≠ [] →
      t.resolveFrom follow (links + 1) l (steps ++ more) =
        t.resolveFrom follow links (start base target) (segments target ++ rest ++ more) := by
    intro follow more hmore
    simp only [resolveFrom, advance_append t follow l steps hmore, h, List.append_assoc]
  rcases hnext with ⟨e, he, hmore⟩ | ⟨l', left, hl', hmore⟩
  · exact .inl ⟨e, hfirst.trans he,
      fun follow more hne => (hlater follow more hne).trans (hmore follow more hne)⟩
  · exact .inr ⟨l', left, hfirst.trans hl',
      fun follow more hne => (hlater follow more hne).trans (hmore follow more hne)⟩

theorem leadsOn (t : FileTree) (links : Nat) (l : Location) (steps : List Bytes) :
    t.LeadsOn links l steps := by
  induction links generalizing l steps with
  | zero =>
    cases h : t.advance true l steps with
    | error e => exact leadsOn_error h
    | ok arrival =>
      cases arrival with
      | «at» l' => exact leadsOn_at h
      | link base target rest => exact leadsOn_link_zero h
  | succ links ih =>
    cases h : t.advance true l steps with
    | error e => exact leadsOn_error h
    | ok arrival =>
      cases arrival with
      | «at» l' => exact leadsOn_at h
      | link base target rest => exact leadsOn_link_succ h (ih _ _)

theorem resolveFrom_dot {left : Nat} {l' : Location}
    (h : t.resolveFrom true left l' [[dot]] = .ok l) : l' = l := by
  have hadvance : t.advance true l' [[dot]] = .ok (.at l') ∨
      ∃ e, t.advance true l' [[dot]] = .error e := by
    simp only [advance, if_true]
    split
    · exact .inr ⟨_, rfl⟩
    · exact .inl rfl
    · exact .inr ⟨_, rfl⟩
  rcases hadvance with ha | ⟨e, ha⟩
  · rw [resolveFrom_at ha] at h
    exact Except.ok.inj h
  · rw [resolveFrom_error ha] at h
    cases h

/-- A path that leads somewhere leads on from there, whether it ends in a slash or not. -/
theorem resolveFrom_steps {start : Location} {p : Path}
    (h : t.resolveFrom true links start (segments p) = .ok l) :
    ∃ left, ∀ follow more, more ≠ [] →
      t.resolveFrom follow links start (p.steps ++ more) = t.resolveFrom follow left l more := by
  -- a slash at the end is one more step, which stays where it is
  have hsegments : segments p = p.steps ∨ segments p = p.steps ++ [[dot]] := by
    unfold segments
    split
    · exact .inr rfl
    · exact .inl (List.append_nil _)
  rcases leadsOn t links start p.steps with ⟨e, he, hmore⟩ | ⟨l', left, hl', hmore⟩
  · rcases hsegments with hs | hs
    · rw [hs, he] at h
      cases h
    · rw [hs, hmore true [[dot]] (List.cons_ne_nil _ _)] at h
      cases h
  · rcases hsegments with hs | hs
    · rw [hs, hl'] at h
      exact ⟨left, Except.ok.inj h ▸ hmore⟩
    · rw [hs, hmore true [[dot]] (List.cons_ne_nil _ _)] at h
      exact ⟨left, resolveFrom_dot h ▸ hmore⟩

end Resolving

/-! ## Final links -/

/-- A path that ends at a link leads to the link itself if the link is not followed; every other
path leads the same way. -/
theorem advance_unfollowed (t : FileTree) (l : Location) (steps : List Bytes) :
    t.advance false l steps = t.advance true l steps ∨
    ∃ base n target, t.advance true l steps = .ok (.link base target []) ∧
      t.advance false l steps = .ok (.at (base ++ [n])) ∧
      t.node? (base ++ [n]) = some (.link target) := by
  induction steps generalizing l with
  | nil => exact .inl rfl
  | cons segment rest ih =>
    rw [advance, advance]
    cases t.node? l with
    | none => exact .inl rfl
    | some node =>
      cases node with
      | file content => exact .inl rfl
      | link target => exact .inl rfl
      | directory =>
        dsimp only
        split
        · exact ih l
        · split
          · exact ih l.dropLast
          · split
            · exact .inl rfl
            · cases hchild : t.node? (l ++ [segment]) with
              | none => exact .inl rfl
              | some child =>
                cases child with
                | file content => exact ih (l ++ [segment])
                | directory => exact ih (l ++ [segment])
                | link target =>
                  by_cases hrest : rest = []
                  · subst hrest
                    exact .inr ⟨l, segment, target, rfl, rfl, hchild⟩
                  · exact .inl (by simp [hrest])

theorem resolveFrom_unfollowed {links : Nat} {steps : List Bytes} {place : Location} {node : Node}
    (h : t.resolveFrom true links l steps = .ok place) (hnode : t.node? place = some node) :
    ∃ here there, t.resolveFrom false links l steps = .ok here ∧ t.node? here = some there := by
  induction links generalizing l steps with
  | zero =>
    rcases advance_unfollowed t l steps with hsame | ⟨base, n, target, -, hat, hlink⟩
    · refine ⟨place, node, ?_, hnode⟩
      rw [resolveFrom, hsame, ← h, resolveFrom]
    · exact ⟨base ++ [n], .link target, resolveFrom_at hat, hlink⟩
  | succ links ih =>
    rcases advance_unfollowed t l steps with hsame | ⟨base, n, target, -, hat, hlink⟩
    · rw [resolveFrom] at h
      rw [resolveFrom, hsame]
      split at h
      · cases h
      · exact ⟨place, node, h, hnode⟩
      · exact ih h
    · exact ⟨base ++ [n], .link target, resolveFrom_at hat, hlink⟩

/-! ## Through links -/

section Links
variable {follow : Bool} {links : Nat} {steps : List Bytes} {place : Location}

/-- A path that meets a link leads to where the target of the link and what follows it do. -/
theorem resolveFrom_through {base : Location} {target : Path} {rest : List Bytes}
    (h : t.advance follow l steps = .ok (.link base target rest))
    (hplace : t.resolveFrom follow links l steps = .ok place) :
    ∃ left, links = left + 1 ∧
      t.resolveFrom follow left (start base target) (segments target ++ rest) = .ok place := by
  cases links with
  | zero =>
    simp only [resolveFrom, h] at hplace
    cases hplace
  | succ left =>
    simp only [resolveFrom, h] at hplace
    exact ⟨left, rfl, hplace⟩

/-- Where a path leads does not depend on how many links may be on its way. -/
theorem resolveFrom_unique {more : Nat} {other : Location}
    (h : t.resolveFrom follow links l steps = .ok place)
    (h' : t.resolveFrom follow more l steps = .ok other) : place = other := by
  induction links using Nat.strongRecOn generalizing more l steps with
  | ind links ih =>
    cases ha : t.advance follow l steps with
    | error e =>
      rw [resolveFrom_error ha] at h
      cases h
    | ok arrival =>
      cases arrival with
      | «at» l' =>
        rw [resolveFrom_at ha] at h h'
        exact Except.ok.inj (h.symm.trans h')
      | link base target rest =>
        obtain ⟨left, rfl, hleft⟩ := resolveFrom_through ha h
        obtain ⟨left', -, hleft'⟩ := resolveFrom_through ha h'
        exact ih left (Nat.lt_succ_self left) hleft hleft'

/-- Whether the end of some steps is no link; a link on the way stands in a directory. -/
def Settled (t : FileTree) : Arrival → Prop
  | .at l => ∀ target, t.node? l ≠ some (.link target)
  | .link base _ _ => t.isDirectory base = true

theorem isDirectory_dropLast (h : t.isDirectory l = true) : t.isDirectory l.dropLast = true := by
  rcases List.eq_nil_or_concat' l with rfl | ⟨front, n, rfl⟩
  · exact h
  · rw [List.dropLast_concat]
    exact isDirectory_of_child (beq_iff_eq.1 h)

theorem not_link_of_directory (h : t.isDirectory l = true) (target : Path) :
    t.node? l ≠ some (.link target) := by
  rw [beq_iff_eq.1 h]
  nofun

theorem advance_settled {arrival : Arrival} (h : t.advance true l steps = .ok arrival)
    (hl : steps = [] → ∀ target, t.node? l ≠ some (.link target)) : t.Settled arrival := by
  induction steps generalizing l with
  | nil =>
    cases h
    exact hl rfl
  | cons segment rest ih =>
    rw [advance] at h
    split at h
    · cases h
    · rename_i hnode
      have hd : t.isDirectory l = true := by simp [isDirectory, hnode]
      split at h
      · exact ih h fun _ => not_link_of_directory hd
      · split at h
        · exact ih h fun _ => not_link_of_directory (isDirectory_dropLast hd)
        · split at h
          · cases h
          · split at h
            · cases h
            · rw [if_pos (.inr rfl)] at h
              cases h
              exact hd
            · rename_i child hlink hchild
              refine ih h fun _ target htarget => hlink target ?_
              rw [hchild] at htarget
              exact Option.some.inj htarget
    · cases h

theorem resolveFrom_settled (h : t.resolveFrom true links l steps = .ok place)
    (hl : steps = [] → ∀ target, t.node? l ≠ some (.link target)) (target : Path) :
    t.node? place ≠ some (.link target) := by
  induction links using Nat.strongRecOn generalizing l steps with
  | ind links ih =>
    cases ha : t.advance true l steps with
    | error e =>
      rw [resolveFrom_error ha] at h
      cases h
    | ok arrival =>
      have hsettled := advance_settled ha hl
      cases arrival with
      | «at» l' =>
        rw [resolveFrom_at ha] at h
        cases h
        exact hsettled target
      | link base next rest =>
        obtain ⟨left, rfl, hleft⟩ := resolveFrom_through ha h
        refine ih left (Nat.lt_succ_self left) hleft fun _ => not_link_of_directory ?_
        unfold start
        split
        · rfl
        · exact hsettled

end Links

/-! ## Names -/

/-- Whether names are short enough to be looked up. -/
def shortNames (names : List Name) : Bool := names.all fun n => decide (n.length ≤ maxNameLength)

theorem advance_entry {n : Name} {child : Node} (h : t.node? (l ++ [n]) = some child)
    (hlink : ∀ target, child ≠ .link target) (follow : Bool) (rest : List Bytes) :
    t.advance follow l (n :: rest) =
      if maxNameLength < n.length then .error .nameTooLong
      else t.advance follow (l ++ [n]) rest := by
  have hn : IsName n := names_below h n List.mem_cons_self
  rw [advance, beq_iff_eq.1 (isDirectory_of_child h)]
  dsimp only
  rw [if_neg hn.2.1, if_neg hn.2.2.1]
  simp only [h]

theorem advance_link {n : Name} {target : Path} (h : t.node? (l ++ [n]) = some (.link target))
    (follow : Bool) (rest : List Bytes) :
    t.advance follow l (n :: rest) =
      if maxNameLength < n.length then .error .nameTooLong
      else if rest ≠ [] ∨ follow = true then .ok (.link l target rest)
      else .ok (.at (l ++ [n])) := by
  have hn : IsName n := names_below h n List.mem_cons_self
  rw [advance, beq_iff_eq.1 (isDirectory_of_child h)]
  dsimp only
  rw [if_neg hn.2.1, if_neg hn.2.2.1]
  simp only [h]

theorem advance_name {n : Name} {rest : List Name} {node : Node}
    (h : t.node? (l ++ n :: rest) = some node) {follow : Bool}
    (hf : follow = true → ∀ target, node ≠ .link target) :
    t.advance follow l (n :: rest) =
      if maxNameLength < n.length then .error .nameTooLong
      else t.advance follow (l ++ [n]) rest := by
  rw [List.append_cons] at h
  cases rest with
  | nil =>
    rw [List.append_nil] at h
    cases node with
    | file content => exact advance_entry h nofun follow []
    | directory => exact advance_entry h nofun follow []
    | link target =>
      have hfollow : ¬(([] : List Name) ≠ [] ∨ follow = true) :=
        not_or.2 ⟨not_not_intro rfl, fun ht => hf ht target rfl⟩
      rw [advance_link h, if_neg hfollow]
      rfl
  | cons m more =>
    have hd := beq_iff_eq.1 (isDirectory_of_below (List.cons_ne_nil m more) h)
    exact advance_entry hd nofun follow (m :: more)

/-- Names lead down the tree, up to the first one that is too long. -/
theorem advance_names {names : List Name} {node : Node} (h : t.node? (l ++ names) = some node)
    {follow : Bool} (hf : follow = true → ∀ target, node ≠ .link target) :
    t.advance follow l names =
      if shortNames names then .ok (.at (l ++ names)) else .error .nameTooLong := by
  induction names generalizing l with
  | nil => simp [advance, shortNames]
  | cons n rest ih =>
    have hstep := advance_name h hf
    rw [List.append_cons] at h
    rw [hstep, ih h, ← List.append_cons, shortNames, shortNames, List.all_cons]
    by_cases hlong : maxNameLength < n.length
    · rw [if_pos hlong, decide_eq_false (Nat.not_le.2 hlong), Bool.false_and]
      rfl
    · rw [if_neg hlong, decide_eq_true (Nat.not_lt.1 hlong), Bool.true_and]

/-! ## Roots -/

/-- Whether the system looks up a path at all. -/
def Searchable (p : Path) : Prop := 0 ∉ p.bytes ∧ p.bytes ≠ [] ∧ p.bytes.length < pathLimit

theorem resolve_iff {p : Path} {follow : Bool} :
    t.resolve follow p = .ok l ↔
      Searchable p ∧ t.resolveFrom follow maxLinks (start t.home p) (segments p) = .ok l := by
  unfold resolve Searchable
  by_cases hzero : 0 ∈ p.bytes
  · simp [hzero]
  · by_cases hempty : p.bytes = []
    · simp [hempty]
    · by_cases hlong : pathLimit ≤ p.bytes.length
      · simp [hzero, hempty, hlong, Nat.not_lt.2 hlong]
      · simp only [List.contains_eq_mem, hzero, decide_false, Bool.false_eq_true, if_false,
          List.isEmpty_iff, hempty, hlong, not_false_eq_true, ne_eq, true_and, Nat.not_le.1 hlong]
        cases t.resolveFrom follow maxLinks (start t.home p) (segments p) with
        | error e => simp [Except.mapError]
        | ok place => simp [Except.mapError]

theorem resolve_eq_ok {p : Path} (h : t.resolve true p = .ok l) :
    0 ∉ p.bytes ∧ p.bytes.length < pathLimit ∧
      t.resolveFrom true maxLinks (start t.home p) (segments p) = .ok l := by
  obtain ⟨⟨hzero, -, hlength⟩, hfrom⟩ := resolve_iff.1 h
  exact ⟨hzero, hlength, hfrom⟩

theorem nodeAt_iff {p : Path} {follow : Bool} {node : Node} :
    t.nodeAt follow p = .ok node ↔ ∃ l, t.resolve follow p = .ok l ∧ t.node? l = some node := by
  unfold nodeAt
  cases t.resolve follow p with
  | error cause => simp
  | ok l => cases hnode : t.node? l <;> simp [hnode]

/-- What can be followed can be looked at. -/
theorem lstat_of_stat {p : Path} {node : Node} (h : t.stat p = .ok node) :
    ∃ there, t.lstat p = .ok there := by
  obtain ⟨place, hplace, hnode⟩ := nodeAt_iff.1 h
  obtain ⟨hsearchable, hfrom⟩ := resolve_iff.1 hplace
  obtain ⟨here, there, hhere, hthere⟩ := resolveFrom_unfollowed hfrom hnode
  exact ⟨there, nodeAt_iff.2 ⟨here, resolve_iff.2 ⟨hsearchable, hhere⟩, hthere⟩⟩

/-- A path that is followed to its end is at no link. -/
theorem stat_ne_link (p : Path) (target : Path) : t.stat p ≠ .ok (.link target) := by
  intro h
  obtain ⟨place, hplace, hnode⟩ := nodeAt_iff.1 h
  obtain ⟨⟨-, hsome, -⟩, hfrom⟩ := resolve_iff.1 hplace
  exact resolveFrom_settled hfrom (fun hnil => absurd hnil (segments_ne_nil hsome)) target hnode

/-- Whether the system looks up a root path continued by names: neither the path nor a name is too
long. -/
def WithinLimits (root : Path) (names : List Name) : Prop :=
  (root.extend names).bytes.length < pathLimit ∧ shortNames names = true

instance (root : Path) (names : List Name) : Decidable (WithinLimits root names) :=
  inferInstanceAs (Decidable (_ ∧ _))

/-- A root path continued by names leads below the place of the root. -/
theorem resolve_extend {root : Path} (hroot : t.resolve true root = .ok l) {names : List Name}
    (hne : names ≠ []) {node : Node} (h : t.node? (l ++ names) = some node) {follow : Bool}
    (hf : follow = true → ∀ target, node ≠ .link target) :
    t.resolve follow (root.extend names) =
      if WithinLimits root names then .ok (l ++ names) else .error (.system .nameTooLong) := by
  have hnames := names_below h
  obtain ⟨hzero, -, hfrom⟩ := resolve_eq_ok hroot
  have hplain : (root.extend names).bytes.contains 0 = false := by
    rw [Bool.eq_false_iff]
    intro hmem
    rcases mem_extend root hnames (List.contains_iff_mem.1 hmem) with hb | hb | ⟨n, hn, hb⟩
    · exact hzero hb
    · cases hb
    · exact (hnames n hn).2.2.2.2 hb
  have hsome : (root.extend names).bytes.isEmpty = false :=
    List.isEmpty_eq_false_iff.2 (extend_ne_nil root hnames hne)
  have hstart : start t.home (root.extend names) = start t.home root := by
    rw [start, start, isAbsolute_extend root hnames]
  obtain ⟨left, hleft⟩ := resolveFrom_steps hfrom
  have hadvance := advance_names h hf
  rw [resolve, hplain, hsome, if_neg Bool.false_ne_true, if_neg Bool.false_ne_true]
  by_cases hlength : pathLimit ≤ (root.extend names).bytes.length
  · rw [if_pos hlength, if_neg fun hw => Nat.not_lt.2 hlength hw.1]
  · rw [if_neg hlength, hstart, segments_extend root hnames hne, hleft follow names hne]
    by_cases hshort : shortNames names = true
    · rw [if_pos hshort] at hadvance
      rw [if_pos ⟨Nat.not_le.1 hlength, hshort⟩, resolveFrom_at hadvance]
      rfl
    · rw [if_neg hshort] at hadvance
      rw [if_neg fun hw => hshort hw.2, resolveFrom_error hadvance]
      rfl

/-- What is at a root path continued by names is what is below the place of the root. -/
theorem nodeAt_extend {root : Path} (hroot : t.resolve true root = .ok l)
    {names : List Name} (hne : names ≠ []) {node : Node} (h : t.node? (l ++ names) = some node)
    {follow : Bool} (hf : follow = true → ∀ target, node ≠ .link target) :
    t.nodeAt follow (root.extend names) =
      if WithinLimits root names then .ok node else .error (.system .nameTooLong) := by
  rw [nodeAt, resolve_extend hroot hne h hf]
  by_cases hw : WithinLimits root names
  · rw [if_pos hw, if_pos hw]
    simp only [h]
  · rw [if_neg hw, if_neg hw]

end DirDigest.FileTree
