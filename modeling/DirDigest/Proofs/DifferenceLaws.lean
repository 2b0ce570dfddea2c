import DirDigest.Proofs.CommandOutcome
import DirDigest.Proofs.Ignoring

/-! # Differences of parts, and differences read backwards

* `keys_restrict`, `sameKeys_restrict`: the keys of a part of a map, and those that two parts share.
* `Difference.Loses`, `restrict_loses`: what a difference loses if both maps lose the same keys.
* `Change.reverse`, `Difference.reverse`, `difference_reverse`: a difference from the new map to the
  old one.
* `differences_ignoring`: the difference of two runs that ignore paths, told by that of two runs
  that ignore none.
-/

set_option autoImplicit false

namespace DirDigest

/-! ## Parts of both maps -/

section Parts
variable (old new : DigestMap) (keep : String → Bool)

theorem keys_restrict (m : DigestMap) : (m.restrict keep).keys = m.keys.filter keep := by
  rw [DigestMap.keys, DigestMap.keys, DigestMap.restrict, List.filter_map]
  rfl

/-- The keys that another map lacks are those of the whole maps, as far as they are kept. -/
theorem lacking_restrict (m n : DigestMap) :
    ((m.restrict keep).keys.filter fun key => ((n.restrict keep).get? key).isNone) =
      (m.keys.filter fun key => (n.get? key).isNone).filter keep := by
  rw [keys_restrict, List.filter_filter, List.filter_filter]
  refine List.filter_congr fun key _ => ?_
  rw [get?_restrict]
  cases keep key <;> simp

theorem changed_restrict : (difference (old.restrict keep) (new.restrict keep)).changed =
    (difference old new).changed.filter fun change => keep change.path := by
  have hentries : (old.restrict keep).entries = old.entries.filter fun e => keep e.1 := rfl
  rw [difference, difference, hentries, List.filterMap_filter, List.filter_filterMap]
  refine List.filterMap_congr fun e _ => ?_
  have hpath : ∀ change, new.change? e = some change → change.path = e.1 := by
    intro change hchange
    rw [(change?_eq_some.1 hchange).1]
  cases hkeep : keep e.1 with
  | true =>
    have hsame : (new.restrict keep).change? e = new.change? e := by
      rw [DigestMap.change?, DigestMap.change?, get?_restrict, hkeep, if_pos rfl]
    rw [if_pos rfl, hsame]
    cases hchange : new.change? e with
    | none => rfl
    | some change => rw [Option.filter_some, hpath change hchange, hkeep, if_pos rfl]
  | false =>
    rw [if_neg Bool.false_ne_true]
    cases hchange : new.change? e with
    | none => rfl
    | some change => rw [Option.filter_some, hpath change hchange, hkeep, if_neg Bool.false_ne_true]

theorem sameKeys_restrict :
    sameKeys (old.restrict keep) (new.restrict keep) = (sameKeys old new).filter keep := by
  have hantisymm : Std.Antisymm keyBefore :=
    ⟨fun a _ hab hba => absurd (keyBefore_trans hab hba) (keyBefore_irrefl a)⟩
  have hirrefl : Std.Irrefl keyBefore := ⟨keyBefore_irrefl⟩
  refine (sameKeys_sorted _ _).eq_of_mem_iff ((sameKeys_sorted old new).filter keep) fun key => ?_
  rw [List.mem_filter, mem_sameKeys, mem_sameKeys, get?_restrict, get?_restrict]
  cases keep key <;> simp

end Parts

/-! ## Ignored keys -/

/-- The ignored keys that have the same digest in both maps. -/
def ignoredSame (old new : DigestMap) (ignored : List String) : List String :=
  ignored.dedup.filter fun key => (old.get? key).isSome && old.get? key == new.get? key

/-- A difference `full` without the keys that are ignored, of which `same` were only counted. -/
structure Difference.Loses (full part : Difference) (ignored : List String) (same : Nat) :
    Prop where
  added : part.added = full.added.filter fun key => !ignored.contains key
  removed : part.removed = full.removed.filter fun key => !ignored.contains key
  changed : part.changed = full.changed.filter fun change => !ignored.contains change.path
  unchanged : part.unchanged + same = full.unchanged

theorem mem_ignoredSame {old new : DigestMap} {ignored : List String} {key : String} :
    key ∈ ignoredSame old new ignored ↔ key ∈ sameKeys old new ∧ key ∈ ignored := by
  rw [ignoredSame, List.mem_filter, List.mem_dedup, mem_sameKeys, and_comm]
  refine and_congr_left fun _ => ?_
  rw [Bool.and_eq_true, Option.isSome_iff_exists, beq_iff_eq]
  constructor
  · rintro ⟨⟨digest, hold⟩, heq⟩
    exact ⟨digest, hold, heq ▸ hold⟩
  · rintro ⟨digest, hold, hnew⟩
    exact ⟨⟨digest, hold⟩, hold.trans hnew.symm⟩

/-- What is unchanged has no list in a difference: the ignored keys are counted among the same keys
of both maps. -/
theorem length_ignoredSame (old new : DigestMap) (ignored : List String) :
    (ignoredSame old new ignored).length =
      ((sameKeys old new).filter fun key => ignored.contains key).length := by
  have hfirst : (ignoredSame old new ignored).Nodup := (List.nodup_dedup ignored).filter _
  have hsecond : ((sameKeys old new).filter fun key => ignored.contains key).Nodup :=
    (nodup_of_sorted (sameKeys_sorted old new)).filter _
  refine ((List.perm_ext_iff_of_nodup hfirst hsecond).2 fun key => ?_).length_eq
  rw [mem_ignoredSame, List.mem_filter, List.contains_iff_mem]

theorem restrict_loses (old new : DigestMap) (ignored : List String) :
    (difference old new).Loses
      (difference (old.restrict fun key => !ignored.contains key)
        (new.restrict fun key => !ignored.contains key))
      ignored (ignoredSame old new ignored).length where
  added := lacking_restrict _ new old
  removed := lacking_restrict _ old new
  changed := changed_restrict old new _
  unchanged := by
    rw [← length_sameKeys, ← length_sameKeys, sameKeys_restrict, length_ignoredSame, Nat.add_comm]
    exact (List.length_eq_length_filter_add fun key => ignored.contains key).symm

/-! ## Backwards -/

/-- A change undone. -/
def Change.reverse (change : Change) : Change := ⟨change.path, change.new, change.old⟩

/-- A difference undone. -/
def Difference.reverse (d : Difference) : Difference where
  added := d.removed
  removed := d.added
  changed := d.changed.map Change.reverse
  unchanged := d.unchanged

theorem changed_reverse (old new : DigestMap) :
    (difference new old).changed = (difference old new).changed.map Change.reverse := by
  have hantisymm : Std.Antisymm fun a b : Change => keyBefore a.path b.path :=
    ⟨fun a _ hab hba => absurd (keyBefore_trans hab hba) (keyBefore_irrefl a.path)⟩
  have hirrefl : Std.Irrefl fun a b : Change => keyBefore a.path b.path :=
    ⟨fun a => keyBefore_irrefl a.path⟩
  have hbackwards := List.pairwise_map.1 (changedKeys_sorted new old)
  have hforwards : ((difference old new).changed.map Change.reverse).Pairwise
      fun a b => keyBefore a.path b.path :=
    List.pairwise_map.2 (List.pairwise_map.1 (changedKeys_sorted old new))
  refine hbackwards.eq_of_mem_iff hforwards fun change => ?_
  rw [mem_changed, List.mem_map]
  constructor
  · rintro ⟨hnew, hold, hne⟩
    exact ⟨change.reverse, mem_changed.2 ⟨hold, hnew, hne.symm⟩, rfl⟩
  · rintro ⟨before, hbefore, rfl⟩
    obtain ⟨hold, hnew, hne⟩ := mem_changed.1 hbefore
    exact ⟨hnew, hold, hne.symm⟩

theorem unchanged_reverse (old new : DigestMap) :
    (difference new old).unchanged = (difference old new).unchanged := by
  rw [← length_sameKeys, ← length_sameKeys]
  refine ((List.perm_ext_iff_of_nodup (nodup_of_sorted (sameKeys_sorted new old))
    (nodup_of_sorted (sameKeys_sorted old new))).2 fun key => ?_).length_eq
  rw [mem_sameKeys, mem_sameKeys]
  exact exists_congr fun _ => and_comm

theorem difference_reverse (old new : DigestMap) :
    difference new old = (difference old new).reverse := by
  have hchanged := changed_reverse old new
  have hunchanged := unchanged_reverse old new
  rw [Difference.reverse, ← hchanged, ← hunchanged]
  rfl

/-! ## Two trees -/

section Runs
variable {σ : Type} {sink : StatusSink σ} {d : Digester} {t : FileTree} {root : Path} {s : σ}

/-- A run that nobody stops still ends well if paths are ignored, and its map loses nothing else. -/
theorem unstopped_ignoring (hgo : ∀ s key, sink.goesOn s key = true) {map : DigestMap}
    (h : (d.digestDirectory t root [] sink s).result = .ok map) (ignored : List String) :
    (d.digestDirectory t root ignored sink s).result =
      .ok (map.restrict fun key => !ignored.contains key) := by
  obtain ⟨keys, digest, hk, hp, rfl⟩ := digestDirectory_eq_ok.1 h
  have hlive := liveKeys_of_subset (List.nil_subset ignored) keys
  have hread : ∀ key ∈ liveKeys ignored keys, d.digestKey t root key = .ok (digest key) := by
    intro key hkey
    rw [hlive] at hkey
    exact hp.reads key (List.mem_filter.1 hkey).1
  refine digestDirectory_eq_ok.2 ⟨keys, digest, hk, unstopped_passes hgo hread s, ?_⟩
  rw [restrict_insertAll, hlive]

end Runs

/-- In runs that nobody stops, ignoring paths in both trees takes them out of the difference of the
trees and leaves the rest of it. The difference from the new map to the old one is that from the old
map to the new one undone. -/
theorem differences_ignoring :
    (∀ {σ : Type} (sink : StatusSink σ), (∀ s key, sink.goesOn s key = true) →
      ∀ (s : σ) (d d' : Digester) (t t' : FileTree) (root root' : Path) (ignored : List String)
        {old new : DigestMap}, (d.digestDirectory t root [] sink s).result = .ok old →
        (d'.digestDirectory t' root' [] sink s).result = .ok new →
        ∃ old' new', (d.digestDirectory t root ignored sink s).result = .ok old' ∧
          (d'.digestDirectory t' root' ignored sink s).result = .ok new' ∧
          (difference old new).Loses (difference old' new') ignored
            (ignoredSame old new ignored).length) ∧
    ∀ old new : DigestMap, difference new old = (difference old new).reverse := by
  refine ⟨?_, difference_reverse⟩
  intro σ sink hgo s d d' t t' root root' ignored old new hold hnew
  exact ⟨_, _, unstopped_ignoring hgo hold ignored, unstopped_ignoring hgo hnew ignored,
    restrict_loses old new ignored⟩

/-- Two builds: in the new one there is a directory in place of a file, and a file in it. -/
def replacedBuilds : FileTree :=
  .ofTable [([utf8 "a"], .directory), ([utf8 "a", utf8 "d"], .directory),
      ([utf8 "a", utf8 "d", utf8 "e"], .file [1]),
      ([utf8 "b"], .directory), ([utf8 "b", utf8 "d"], .directory),
      ([utf8 "b", utf8 "d", utf8 "e"], .directory),
      ([utf8 "b", utf8 "d", utf8 "e", utf8 "g"], .file [2])]
    (by decide) (by decide) (by decide)

-- a path that is in neither build is ignored besides, and one is ignored twice
theorem differences_ignoring_sample : ∃ old new : DigestMap,
    ((Digester.new {}).digestDirectory replacedBuilds "a" ["d/e/g", "d", "other", "d"]
      .silent ()).result = .ok old ∧
    ((Digester.new {}).digestDirectory replacedBuilds "b" ["d/e/g", "d", "other", "d"]
      .silent ()).result = .ok new ∧
    difference old new = ⟨[], [], [⟨"d/e", digestBytes [1], 0⟩], 0⟩ ∧
    difference new old = ⟨[], [], [⟨"d/e", 0, digestBytes [1]⟩], 0⟩ := by
  let before : DigestMap := .ofList [("d", 0), ("d/e", digestBytes [1])]
  let after : DigestMap := .ofList [("d", 0), ("d/e", 0), ("d/e/g", digestBytes [2])]
  have hbefore : ((Digester.new {}).digestDirectory replacedBuilds "a" [] .silent ()).result =
      .ok before := by decide +kernel
  have hafter : ((Digester.new {}).digestDirectory replacedBuilds "b" [] .silent ()).result =
      .ok after := by decide +kernel
  obtain ⟨old, new, hold, hnew, hloses⟩ := differences_ignoring.1 .silent (fun _ _ => rfl) ()
    (.new {}) (.new {}) replacedBuilds replacedBuilds "a" "b" ["d/e/g", "d", "other", "d"]
    hbefore hafter
  have hfull : difference before after = ⟨["d/e/g"], [], [⟨"d/e", digestBytes [1], 0⟩], 1⟩ := by
    decide +kernel
  have hsame : (ignoredSame before after ["d/e/g", "d", "other", "d"]).length = 1 := by
    decide +kernel
  rw [hfull, hsame] at hloses
  obtain ⟨hadded, hremoved, hchanged, hunchanged⟩ := hloses
  have hpart : difference old new = ⟨[], [], [⟨"d/e", digestBytes [1], 0⟩], 0⟩ := by
    have hfields : difference old new = ⟨(difference old new).added, (difference old new).removed,
        (difference old new).changed, (difference old new).unchanged⟩ := rfl
    rw [hfields, hadded, hremoved, hchanged, Nat.add_eq_right.1 hunchanged]
    decide +kernel
  refine ⟨old, new, hold, hnew, hpart, ?_⟩
  rw [differences_ignoring.2 old new, hpart]
  rfl

end DirDigest
