import DirDigest.Zip.Archive

/-! # Entries of an open archive

A directory may list a name more than once; an open archive has no two entries of one name. What a
directory lists is told here before entries of the same name are merged.

* `Directory.list`: the entries of a directory, each in its place.
* `mergeEntries`: the entries after those of the same name are merged.
* `Lists`, `opens_iff_lists`: the listing that a byte string is opened with.
* `Archive.names_nodup`: no two entries of an open archive have the same name.
-/

set_option autoImplicit false

namespace DirDigest.Zip

/-! ## Adding entries -/

theorem addEntry_names (entries : List Entry) (e : Entry) :
    (addEntry entries e).map Entry.name =
      if e.name ∈ entries.map Entry.name then entries.map Entry.name
      else entries.map Entry.name ++ [e.name] := by
  have hany : entries.any (·.name == e.name) = true ↔ e.name ∈ entries.map Entry.name := by
    simp only [List.any_eq_true, List.mem_map, beq_iff_eq]
  unfold addEntry
  by_cases h : e.name ∈ entries.map Entry.name
  · rw [if_pos (hany.2 h), if_pos h, List.map_map]
    refine List.map_congr_left fun old _ => ?_
    by_cases ho : old.name = e.name
    · simp [ho]
    · simp [ho]
  · rw [if_neg (fun ha => h (hany.1 ha)), if_neg h]
    simp

theorem addEntry_nodup {entries : List Entry} (e : Entry)
    (h : (entries.map Entry.name).Nodup) : ((addEntry entries e).map Entry.name).Nodup := by
  rw [addEntry_names]
  split
  · exact h
  · rename_i hnew
    refine List.nodup_append.2 ⟨h, by simp, fun a ha b hb => ?_⟩
    rw [List.mem_singleton.1 hb]
    exact fun hab => hnew (hab ▸ ha)

theorem addEntry_new {entries : List Entry} {e : Entry} (h : e.name ∉ entries.map Entry.name) :
    addEntry entries e = entries ++ [e] := by
  unfold addEntry
  refine if_neg fun ha => h ?_
  obtain ⟨old, hold, hname⟩ := List.any_eq_true.1 ha
  exact List.mem_map.2 ⟨old, hold, beq_iff_eq.1 hname⟩

theorem foldl_addEntry_nodup {listed entries : List Entry} (h : (entries.map Entry.name).Nodup) :
    ((listed.foldl addEntry entries).map Entry.name).Nodup := by
  induction listed generalizing entries with
  | nil => exact h
  | cons x rest ih => exact ih (addEntry_nodup x h)

theorem foldl_addEntry_new {listed entries : List Entry}
    (h : (entries.map Entry.name ++ listed.map Entry.name).Nodup) :
    listed.foldl addEntry entries = entries ++ listed := by
  induction listed generalizing entries with
  | nil => rw [List.foldl_nil, List.append_nil]
  | cons e rest ih =>
    have hnew : e.name ∉ entries.map Entry.name := fun hold =>
      (List.nodup_append.1 h).2.2 _ hold _ List.mem_cons_self rfl
    have hrest : ((entries ++ [e]).map Entry.name ++ rest.map Entry.name).Nodup := by
      rw [List.map_append, List.append_assoc]
      exact h
    rw [List.foldl_cons, addEntry_new hnew, ih hrest, List.append_assoc, List.singleton_append]

/-- Adds the entries of a listing one after another. -/
def mergeEntries (listed : List Entry) : List Entry := listed.foldl addEntry []

theorem mergeEntries_nodup (listed : List Entry) :
    ((mergeEntries listed).map Entry.name).Nodup := by
  have hnil : (([] : List Entry).map Entry.name).Nodup := List.nodup_nil
  exact foldl_addEntry_nodup hnil

theorem mergeEntries_distinct {listed : List Entry} (h : (listed.map Entry.name).Nodup) :
    mergeEntries listed = listed := by
  have hnew : (([] : List Entry).map Entry.name ++ listed.map Entry.name).Nodup := h
  exact foldl_addEntry_new hnew

/-! ## Listing -/

/-- The `count` entries listed from `position` on. -/
def listEntries (data : Array UInt8) (shift : Nat) : (count position : Nat) →
    Except Defect (List Entry)
  | 0, _ => .ok []
  | count + 1, position =>
    match readEntry data shift position with
    | .error d => .error d
    | .ok (e, position) => (listEntries data shift count position).map (e :: ·)

/-- The entries that a directory lists, in its order. -/
def Directory.list (data : Array UInt8) (d : Directory) : Except Defect (List Entry) :=
  if d.entries < d.entriesHere then .error .entryCount
  else if d.disk ≠ d.directoryDisk then .error .severalDisks
  else listEntries data d.shift d.entries (d.offset + d.shift)

theorem readEntries_eq (data : Array UInt8) (shift count position : Nat) (entries : List Entry) :
    readEntries data shift count position entries =
      (listEntries data shift count position).map fun listed => listed.foldl addEntry entries := by
  induction count generalizing position entries with
  | zero => rfl
  | succ count ih =>
    unfold readEntries listEntries
    cases readEntry data shift position with
    | error d => rfl
    | ok read =>
      simp only [ih]
      cases listEntries data shift count read.2 with
      | error d => rfl
      | ok listed => rfl

theorem Directory.readEntries_eq (data : Array UInt8) (d : Directory) :
    d.readEntries data = (d.list data).map mergeEntries := by
  unfold Directory.readEntries Directory.list
  rw [Zip.readEntries_eq]
  split
  · rfl
  · split
    · rfl
    · rfl

/-! ## The end record that counts -/

/-- Whether an end record at `position` leads to a directory with these entries. -/
def LeadsTo (data : Array UInt8) (position : Nat) (listed : List Entry) : Prop :=
  hasSignature data endSignature position = true ∧
    ∃ directory : Directory, directoryOfEnd data position = .ok directory ∧
      directory.list data = .ok listed

/-- The directory that the last usable end record of a byte string leads to has these entries. -/
def Lists (bytes : Bytes) (listed : List Entry) : Prop :=
  ∃ position < bytes.length, LeadsTo bytes.toArray position listed ∧
    ∀ later others, position < later → later < bytes.length →
      ¬LeadsTo bytes.toArray later others

theorem search_leads {data : Array UInt8} {position : Nat} {listed : List Entry}
    (h : LeadsTo data position listed) (failure : Option Defect) (defect : Defect) :
    Archive.search data (position + 1) failure defect = .ok ⟨data, mergeEntries listed⟩ := by
  obtain ⟨hs, directory, hd, hlist⟩ := h
  have hread : directory.readEntries data = .ok (mergeEntries listed) := by
    rw [Directory.readEntries_eq, hlist]
    rfl
  rw [Archive.search, if_pos hs, hd]
  simp only [hread]

theorem search_passes {data : Array UInt8} {position : Nat}
    (h : ∀ listed, ¬LeadsTo data position listed) (failure : Option Defect) (defect : Defect) :
    ∃ failure' defect', Archive.search data (position + 1) failure defect =
      Archive.search data position failure' defect' := by
  rw [Archive.search]
  split
  · rename_i hs
    split
    · exact ⟨_, _, rfl⟩
    · rename_i directory hd
      cases hlist : directory.list data with
      | ok listed => exact absurd ⟨hs, directory, hd, hlist⟩ (h listed)
      | error d =>
        rw [Directory.readEntries_eq, hlist]
        exact ⟨_, _, rfl⟩
  · exact ⟨_, _, rfl⟩

theorem search_eq_ok_iff {data : Array UInt8} {below : Nat} {failure : Option Defect}
    {defect : Defect} {a : Archive} :
    Archive.search data below failure defect = .ok a ↔
      ∃ position < below, ∃ listed, LeadsTo data position listed ∧
        (∀ later others, position < later → later < below → ¬LeadsTo data later others) ∧
        a = ⟨data, mergeEntries listed⟩ := by
  induction below generalizing failure defect with
  | zero => simp [Archive.search]
  | succ top ih =>
    by_cases htop : ∃ listed, LeadsTo data top listed
    · obtain ⟨listed, hlisted⟩ := htop
      rw [search_leads hlisted]
      constructor
      · intro h
        cases h
        exact ⟨top, Nat.lt_succ_self top, listed, hlisted, fun later _ hl hb => by omega, rfl⟩
      · rintro ⟨position, hp, others, hothers, hlast, rfl⟩
        have hposition : position = top := by
          rcases Nat.lt_or_eq_of_le (Nat.le_of_lt_succ hp) with hlt | heq
          · exact absurd hlisted (hlast top listed hlt (Nat.lt_succ_self top))
          · exact heq
        subst hposition
        -- one position leads to one listing
        rw [← search_leads hothers none .noEndRecord, search_leads hlisted]
    · have hnone : ∀ listed, ¬LeadsTo data top listed := fun listed h => htop ⟨listed, h⟩
      obtain ⟨failure', defect', hpass⟩ := search_passes hnone failure defect
      rw [hpass, ih]
      constructor
      · rintro ⟨position, hp, listed, hlisted, hlast, ha⟩
        refine ⟨position, Nat.lt_succ_of_lt hp, listed, hlisted, fun later others hl hb => ?_, ha⟩
        rcases Nat.lt_or_eq_of_le (Nat.le_of_lt_succ hb) with hlt | rfl
        · exact hlast later others hl hlt
        · exact hnone others
      · rintro ⟨position, hp, listed, hlisted, hlast, ha⟩
        have hne : position ≠ top := fun heq => hnone listed (heq ▸ hlisted)
        exact ⟨position, by omega, listed, hlisted,
          fun later others hl hb => hlast later others hl (Nat.lt_succ_of_lt hb), ha⟩

/-- What a byte string is opened as is told by its listing, and every archive that opens has one. -/
theorem opens_iff_lists {bytes : Bytes} {a : Archive} :
    Archive.ofBytes bytes = .ok a ↔
      ∃ listed, Lists bytes listed ∧ a = ⟨bytes.toArray, mergeEntries listed⟩ := by
  rw [Archive.ofBytes, search_eq_ok_iff]
  constructor
  · rintro ⟨position, hp, listed, hlisted, hlast, ha⟩
    exact ⟨listed, ⟨position, hp, hlisted, hlast⟩, ha⟩
  · rintro ⟨listed, ⟨position, hp, hlisted, hlast⟩, ha⟩
    exact ⟨position, hp, listed, hlisted, hlast, ha⟩

theorem Archive.names_nodup {bytes : Bytes} {a : Archive} (h : Archive.ofBytes bytes = .ok a) :
    (a.entries.map Entry.name).Nodup := by
  obtain ⟨listed, -, rfl⟩ := opens_iff_lists.1 h
  exact mergeEntries_nodup listed

end DirDigest.Zip
