import DirDigest.Difference
import DirDigest.Proofs.DigestMap

/-! # The classes of keys in a difference

* `mem_added`, `mem_removed`, `mem_changed`: what is in each class, told by the two maps.
* `sameKeys`, `mem_sameKeys`: the keys that a difference only counts.
* `keys_perm_old`, `keys_perm_new`: the keys of a map are those of three classes;
  `size_of_classes` counts them.
* `Difference.patch`, `patch_difference`: the old map with the difference applied to it.
* `difference_isEmpty`: a map differs from every other one, but not from itself.
* `difference_classifies`: the classes of every two maps.
* `ChangesOnly`, `changesOnly_of_get?`: a change of one key is all that two maps differ in.
-/

set_option autoImplicit false

namespace DirDigest

variable {old new : DigestMap} {key : String}

/-! ## Members of the classes -/

theorem mem_added :
    key ∈ (difference old new).added ↔ key ∉ old.keys ∧ key ∈ new.keys := by
  rw [difference, List.mem_filter, Option.isNone_iff_eq_none, get?_eq_none, and_comm]

theorem mem_removed :
    key ∈ (difference old new).removed ↔ key ∈ old.keys ∧ key ∉ new.keys := by
  rw [difference, List.mem_filter, Option.isNone_iff_eq_none, get?_eq_none]

theorem change?_eq_some {e : String × Digest} {change : Change} :
    new.change? e = some change ↔
      e = (change.path, change.old) ∧ new.get? change.path = some change.new ∧
        change.old ≠ change.new := by
  obtain ⟨path, digest⟩ := e
  obtain ⟨path', first, second⟩ := change
  constructor
  · intro h
    unfold DigestMap.change? at h
    split at h
    · rename_i found hfound
      split at h
      · cases h
      · rename_i hne
        cases h
        exact ⟨rfl, hfound, Ne.symm hne⟩
    · cases h
  · rintro ⟨heq, hnew, hne⟩
    cases heq
    simp only [DigestMap.change?, hnew, if_neg (Ne.symm hne)]

theorem mem_changed {change : Change} :
    change ∈ (difference old new).changed ↔
      old.get? change.path = some change.old ∧ new.get? change.path = some change.new ∧
        change.old ≠ change.new := by
  rw [difference, List.mem_filterMap]
  constructor
  · rintro ⟨e, he, hchange⟩
    obtain ⟨rfl, hnew, hne⟩ := change?_eq_some.1 hchange
    exact ⟨get?_eq_some.2 he, hnew, hne⟩
  · rintro ⟨hold, hnew⟩
    exact ⟨_, get?_eq_some.1 hold, change?_eq_some.2 ⟨rfl, hnew⟩⟩

/-- The keys that have another digest in the new map. -/
def changedKeys (old new : DigestMap) : List String :=
  (difference old new).changed.map Change.path

theorem mem_changedKeys : key ∈ changedKeys old new ↔
    ∃ first second, old.get? key = some first ∧ new.get? key = some second ∧ first ≠ second := by
  rw [changedKeys, List.mem_map]
  constructor
  · rintro ⟨change, hchange, rfl⟩
    exact ⟨change.old, change.new, mem_changed.1 hchange⟩
  · rintro ⟨first, second, h⟩
    exact ⟨⟨key, first, second⟩, mem_changed.2 h, rfl⟩

/-- The keys that have the same digest in both maps. -/
def sameKeys (old new : DigestMap) : List String :=
  (old.entries.filter fun e => new.get? e.1 = some e.2).map Prod.fst

theorem mem_sameKeys : key ∈ sameKeys old new ↔
    ∃ digest, old.get? key = some digest ∧ new.get? key = some digest := by
  simp [sameKeys, get?_eq_some]

theorem length_sameKeys (old new : DigestMap) :
    (sameKeys old new).length = (difference old new).unchanged := by
  rw [sameKeys, List.length_map, difference, List.countP_eq_length_filter]

/-! ## Order -/

theorem added_sorted (old new : DigestMap) : (difference old new).added.Pairwise keyBefore :=
  (keys_sorted new).filter _

theorem removed_sorted (old new : DigestMap) : (difference old new).removed.Pairwise keyBefore :=
  (keys_sorted old).filter _

theorem changedKeys_sorted (old new : DigestMap) : (changedKeys old new).Pairwise keyBefore := by
  refine List.pairwise_map.2 (List.pairwise_filterMap.2 (old.sorted.imp ?_))
  intro e f hlt change hchange other hother
  obtain ⟨rfl, -⟩ := change?_eq_some.1 hchange
  obtain ⟨rfl, -⟩ := change?_eq_some.1 hother
  exact hlt

theorem sameKeys_sorted (old new : DigestMap) : (sameKeys old new).Pairwise keyBefore :=
  List.pairwise_map.2 (old.sorted.filter _)

/-! ## The keys of each map -/

/-- A key of both maps is changed or not. -/
theorem mem_changed_or_same : key ∈ changedKeys old new ∨ key ∈ sameKeys old new ↔
    key ∈ old.keys ∧ key ∈ new.keys := by
  rw [mem_changedKeys, mem_sameKeys, mem_keys, mem_keys]
  constructor
  · rintro (⟨first, second, hold, hnew, -⟩ | ⟨digest, hold, hnew⟩)
    · exact ⟨⟨first, hold⟩, second, hnew⟩
    · exact ⟨⟨digest, hold⟩, digest, hnew⟩
  · rintro ⟨⟨first, hold⟩, second, hnew⟩
    rcases ne_or_eq first second with hne | rfl
    · exact .inl ⟨first, second, hold, hnew, hne⟩
    · exact .inr ⟨first, hold, hnew⟩

theorem added_disjoint_changed (old new : DigestMap) :
    (difference old new).added.Disjoint (changedKeys old new) :=
  fun _ hadded hchanged => (mem_added.1 hadded).1 (mem_changed_or_same.1 (.inl hchanged)).1

theorem removed_disjoint_changed (old new : DigestMap) :
    (difference old new).removed.Disjoint (changedKeys old new) :=
  fun _ hremoved hchanged => (mem_removed.1 hremoved).2 (mem_changed_or_same.1 (.inl hchanged)).2

theorem changed_disjoint_same (old new : DigestMap) :
    (changedKeys old new).Disjoint (sameKeys old new) := by
  intro key hchanged hsame
  obtain ⟨first, second, hold, hnew, hne⟩ := mem_changedKeys.1 hchanged
  obtain ⟨digest, hold', hnew'⟩ := mem_sameKeys.1 hsame
  rw [hold] at hold'
  rw [hnew] at hnew'
  exact hne ((Option.some.inj hold').trans (Option.some.inj hnew').symm)

/-- Keys that are those of one map only and those of both maps. -/
theorem perm_classes {keys only : List String} (hkeys : keys.Nodup)
    (honly : only.Pairwise keyBefore)
    (hmem : ∀ key, key ∈ keys ↔ key ∈ only ∨ key ∈ old.keys ∧ key ∈ new.keys)
    (hdisjoint : ∀ key ∈ only, ¬(key ∈ old.keys ∧ key ∈ new.keys)) :
    keys.Perm (only ++ (changedKeys old new ++ sameKeys old new)) := by
  have hboth : (changedKeys old new ++ sameKeys old new).Nodup :=
    (nodup_of_sorted (changedKeys_sorted old new)).append
      (nodup_of_sorted (sameKeys_sorted old new)) (changed_disjoint_same old new)
  have hnodup : (only ++ (changedKeys old new ++ sameKeys old new)).Nodup := by
    refine (nodup_of_sorted honly).append hboth fun key ho hb => ?_
    exact hdisjoint key ho (mem_changed_or_same.1 (List.mem_append.1 hb))
  refine (List.perm_ext_iff_of_nodup hkeys hnodup).2 fun key => ?_
  rw [hmem, ← mem_changed_or_same, List.mem_append, List.mem_append]

theorem keys_perm_old (old new : DigestMap) : old.keys.Perm
    ((difference old new).removed ++ (changedKeys old new ++ sameKeys old new)) := by
  refine perm_classes (keys_nodup old) (removed_sorted old new) (fun key => ?_)
    fun key hremoved hboth => (mem_removed.1 hremoved).2 hboth.2
  rw [mem_removed, ← and_or_left, or_comm, and_iff_left (em _)]

theorem keys_perm_new (old new : DigestMap) : new.keys.Perm
    ((difference old new).added ++ (changedKeys old new ++ sameKeys old new)) := by
  refine perm_classes (keys_nodup new) (added_sorted old new) (fun key => ?_)
    fun key hadded hboth => (mem_added.1 hadded).1 hboth.1
  rw [mem_added, ← or_and_right, or_comm, and_iff_right (em _)]

theorem size_of_classes {m : DigestMap} {only : List String}
    (h : m.keys.Perm (only ++ (changedKeys old new ++ sameKeys old new))) :
    m.size = only.length + (difference old new).changed.length +
      (difference old new).unchanged := by
  have hlength := h.length_eq
  rw [List.length_append, List.length_append, length_sameKeys, changedKeys, List.length_map,
    DigestMap.keys, List.length_map] at hlength
  rw [DigestMap.size, hlength, Nat.add_assoc]

/-! ## Applying a difference -/

/-- The old map without what was removed, with what was changed written over, and with the digests
that the new map gives to what was added. -/
def Difference.patch (d : Difference) (old new : DigestMap) : DigestMap :=
  (d.changed.foldl (fun m change => m.insert change.path change.new)
    (old.restrict fun key => !d.removed.contains key)).insertAll
      (fun key => (new.get? key).getD directoryDigest) d.added

theorem foldl_changes (digest : String → Digest) {changes : List Change}
    (h : ∀ change ∈ changes, change.new = digest change.path) (m : DigestMap) :
    changes.foldl (fun m change => m.insert change.path change.new) m =
      m.insertAll digest (changes.map Change.path) := by
  induction changes generalizing m with
  | nil => rfl
  | cons change rest ih =>
    obtain ⟨hchange, hrest⟩ := List.forall_mem_cons.1 h
    rw [List.foldl_cons, hchange, ih hrest]
    rfl

theorem patch_difference (old new : DigestMap) : (difference old new).patch old new = new := by
  let digest (key : String) : Digest := (new.get? key).getD directoryDigest
  have hchanged : ∀ change ∈ (difference old new).changed, change.new = digest change.path := by
    intro change hchange
    simp only [digest, (mem_changed.1 hchange).2.1, Option.getD_some]
  refine ext_get? fun key => ?_
  rw [Difference.patch, foldl_changes digest hchanged, get?_insertAll, get?_insertAll,
    get?_restrict, ← changedKeys, List.contains_eq_mem]
  have hadded : key ∈ (difference old new).added ↔ old.get? key = none ∧ new.get? key ≠ none := by
    rw [mem_added, get?_eq_none, ne_eq, get?_eq_none, not_not]
  have hremoved : key ∈ (difference old new).removed ↔
      old.get? key ≠ none ∧ new.get? key = none := by
    rw [mem_removed, get?_eq_none, ne_eq, get?_eq_none, not_not]
  cases hold : old.get? key with
  | none =>
    cases hnew : new.get? key with
    | none => simp [hadded, hremoved, mem_changedKeys, hold, hnew]
    | some second => simp [hadded, hold, hnew]
  | some first =>
    cases hnew : new.get? key with
    | none => simp [hadded, hremoved, mem_changedKeys, hold, hnew]
    | some second =>
      by_cases heq : first = second
      · simp [hadded, hremoved, mem_changedKeys, hold, hnew, heq]
      · simp [hadded, mem_changedKeys, hold, hnew, heq, digest]

/-! ## Empty differences -/

theorem difference_of_keys (h : ∀ key, key ∈ old.keys ↔ key ∈ new.keys) :
    (difference old new).added = [] ∧ (difference old new).removed = [] := by
  constructor
  · refine List.eq_nil_iff_forall_not_mem.2 fun key hkey => ?_
    obtain ⟨hold, hnew⟩ := mem_added.1 hkey
    exact hold ((h key).2 hnew)
  · refine List.eq_nil_iff_forall_not_mem.2 fun key hkey => ?_
    obtain ⟨hold, hnew⟩ := mem_removed.1 hkey
    exact hnew ((h key).1 hold)

theorem difference_self (m : DigestMap) : (difference m m).isEmpty = true := by
  obtain ⟨hadded, hremoved⟩ := difference_of_keys fun key => Iff.refl (key ∈ m.keys)
  have hchanged : (difference m m).changed = [] := by
    refine List.eq_nil_iff_forall_not_mem.2 fun change h => ?_
    obtain ⟨hold, hnew, hne⟩ := mem_changed.1 h
    exact hne (Option.some.inj (hold.symm.trans hnew))
  simp only [Difference.isEmpty, hadded, hremoved, hchanged, List.isEmpty_nil, Bool.and_self]

/-- Without a difference two maps are equal. -/
theorem difference_isEmpty {m n : DigestMap} : (difference m n).isEmpty = true ↔ m = n := by
  constructor
  · intro h
    simp only [Difference.isEmpty, Bool.and_eq_true, List.isEmpty_iff] at h
    obtain ⟨⟨hadded, hremoved⟩, hchanged⟩ := h
    have hpatch := patch_difference m n
    rw [Difference.patch, hadded, hremoved, hchanged] at hpatch
    rw [← hpatch]
    refine ext_get? fun key => ?_
    simp [get?_insertAll, get?_restrict]
  · rintro rfl
    exact difference_self m

/-! ## All maps -/

/-- Whether a difference puts every key of two maps into exactly one class. -/
structure Classifies (old new : DigestMap) (d : Difference) : Prop where
  added_sorted : d.added.Pairwise keyBefore
  removed_sorted : d.removed.Pairwise keyBefore
  changed_sorted : (d.changed.map Change.path).Pairwise keyBefore
  added_removed : d.added.Disjoint d.removed
  added_changed : d.added.Disjoint (d.changed.map Change.path)
  removed_changed : d.removed.Disjoint (d.changed.map Change.path)
  added : ∀ key, key ∈ d.added ↔ key ∉ old.keys ∧ key ∈ new.keys
  removed : ∀ key, key ∈ d.removed ↔ key ∈ old.keys ∧ key ∉ new.keys
  changed : ∀ change, change ∈ d.changed ↔ old.get? change.path = some change.old ∧
    new.get? change.path = some change.new ∧ change.old ≠ change.new
  /-- What is unchanged is only counted. -/
  unchanged : ∃ same : List String, same.Nodup ∧ same.length = d.unchanged ∧
    ∀ key, key ∈ same ↔ ∃ digest, old.get? key = some digest ∧ new.get? key = some digest
  size_old : old.size = d.removed.length + d.changed.length + d.unchanged
  size_new : new.size = d.added.length + d.changed.length + d.unchanged
  isEmpty_iff : d.isEmpty = true ↔ old = new
  total_iff : d.total = 0 ↔ old = new
  patched : d.patch old new = new

theorem difference_classifies (old new : DigestMap) : Classifies old new (difference old new) where
  added_sorted := added_sorted old new
  removed_sorted := removed_sorted old new
  changed_sorted := changedKeys_sorted old new
  added_removed := fun _ hadded hremoved => (mem_added.1 hadded).1 (mem_removed.1 hremoved).1
  added_changed := added_disjoint_changed old new
  removed_changed := removed_disjoint_changed old new
  added := fun _ => mem_added
  removed := fun _ => mem_removed
  changed := fun _ => mem_changed
  unchanged := ⟨sameKeys old new, nodup_of_sorted (sameKeys_sorted old new),
    length_sameKeys old new, fun _ => mem_sameKeys⟩
  size_old := size_of_classes (keys_perm_old old new)
  size_new := size_of_classes (keys_perm_new old new)
  isEmpty_iff := difference_isEmpty
  total_iff := by
    rw [← difference_isEmpty]
    simp [Difference.total, Difference.isEmpty, and_assoc]
  patched := patch_difference old new

example : difference (.ofList [("a", 1), ("b", 2), ("c", 4)])
      (.ofList [("d", 5), ("c", 4), ("b", 3)]) =
    ⟨["d"], ["a"], [⟨"b", 2, 3⟩], 1⟩ := by
  decide

/-! ## One change -/

/-- Whether a change of one key is all that two maps differ in. -/
structure ChangesOnly (map map' : DigestMap) (change : Change) : Prop where
  added : (difference map map').added = []
  removed : (difference map map').removed = []
  changed : (difference map map').changed = [change]
  unchanged : (difference map map').unchanged + 1 = map.size
  others : ∀ key, key ≠ change.path → map'.get? key = map.get? key

theorem changed_nodup (old new : DigestMap) : (difference old new).changed.Nodup :=
  (nodup_of_sorted (changedKeys_sorted old new)).of_map Change.path

theorem changesOnly_of_get? {map map' : DigestMap} {key : String} {old new : Digest}
    (hold : map.get? key = some old) (hnew : map'.get? key = some new) (hne : old ≠ new)
    (hothers : ∀ other, other ≠ key → map'.get? other = map.get? other) :
    ChangesOnly map map' ⟨key, old, new⟩ := by
  have hkeys : ∀ k, k ∈ map.keys ↔ k ∈ map'.keys := by
    intro k
    by_cases hk : k = key
    · subst hk
      exact iff_of_true (mem_keys.2 ⟨old, hold⟩) (mem_keys.2 ⟨new, hnew⟩)
    · rw [mem_keys, mem_keys, hothers k hk]
  obtain ⟨hadded, hremoved⟩ := difference_of_keys hkeys
  have hchanged : (difference map map').changed = [⟨key, old, new⟩] := by
    have hperm : (difference map map').changed.Perm [⟨key, old, new⟩] := by
      refine (List.perm_ext_iff_of_nodup (changed_nodup map map') (List.nodup_singleton _)).2 ?_
      intro change
      rw [mem_changed, List.mem_singleton]
      constructor
      · rintro ⟨hfirst, hsecond, hdiffer⟩
        by_cases hpath : change.path = key
        · obtain ⟨path, first, second⟩ := change
          subst hpath
          cases hold.symm.trans hfirst
          cases hnew.symm.trans hsecond
          rfl
        · rw [hothers _ hpath, hfirst] at hsecond
          exact absurd (Option.some.inj hsecond) hdiffer
      · rintro rfl
        exact ⟨hold, hnew, hne⟩
    exact List.perm_singleton.1 hperm
  refine ⟨hadded, hremoved, hchanged, ?_, hothers⟩
  rw [size_of_classes (keys_perm_old map map'), hremoved, hchanged, List.length_nil,
    List.length_singleton, Nat.zero_add, Nat.add_comm]

end DirDigest
