import DirDigest.DigestMap
import DirDigest.Lookup
import Mathlib.Data.List.Sort

/-! # Looking up digests

* `get?_of_mem`, `get?_eq_some`, `mem_keys`, `get?_eq_none`: the entries of a map are what it gives.
* `get?_insert`: inserting a digest changes what its key has, and nothing else.
* `DigestMap.insertAll`, `get?_insertAll`: a map with the digests of a list of keys.
* `ext_get?`: maps that give the same digests are equal.
* `DigestMap.restrict`, `get?_restrict`: the part of a map whose keys are kept.
-/

set_option autoImplicit false

namespace DirDigest

theorem keys_sorted (m : DigestMap) : m.keys.Pairwise keyBefore := List.pairwise_map.2 m.sorted

theorem nodup_of_sorted {keys : List String} (h : keys.Pairwise keyBefore) : keys.Nodup := by
  refine h.imp fun {first second} hlt heq => ?_
  rw [heq] at hlt
  exact keyBefore_irrefl second hlt

theorem keys_nodup (m : DigestMap) : m.keys.Nodup := nodup_of_sorted (keys_sorted m)

theorem get?_of_mem {m : DigestMap} {e : String × Digest} (he : e ∈ m.entries) :
    m.get? e.1 = some e.2 := lookup_of_mem (keys_nodup m) he

theorem get?_eq_some {m : DigestMap} {key : String} {digest : Digest} :
    m.get? key = some digest ↔ (key, digest) ∈ m.entries :=
  ⟨mem_of_lookup, get?_of_mem⟩

theorem mem_keys {m : DigestMap} {key : String} :
    key ∈ m.keys ↔ ∃ digest, m.get? key = some digest := by
  simp [DigestMap.keys, get?_eq_some]

theorem get?_eq_none {m : DigestMap} {key : String} : m.get? key = none ↔ key ∉ m.keys := by
  rw [mem_keys, ← Option.isSome_iff_exists, Bool.not_eq_true, Option.isSome_eq_false_iff,
    Option.isNone_iff_eq_none]

theorem get?_insert (m : DigestMap) (key other : String) (digest : Digest) :
    (m.insert key digest).get? other = if other = key then some digest else m.get? other := by
  simp only [DigestMap.get?, DigestMap.insert]
  induction m.entries with
  | nil => exact lookup_entry other (key, digest) []
  | cons e rest ih =>
    rw [DigestMap.insertEntry]
    by_cases hbefore : keyBefore key e.1
    · rw [if_pos hbefore, lookup_entry]
    · rw [if_neg hbefore]
      by_cases hkey : key = e.1
      · subst hkey
        rw [if_pos rfl, lookup_entry, lookup_entry]
        by_cases h : other = e.1 <;> simp [h]
      · rw [if_neg hkey, lookup_entry, lookup_entry, ih]
        by_cases h : other = e.1 <;> simp [h, Ne.symm hkey]

/-- A map with further digests. -/
def DigestMap.insertAll (digest : String → Digest) (keys : List String) (map : DigestMap) :
    DigestMap :=
  keys.foldl (fun map key => map.insert key (digest key)) map

theorem get?_insertAll (digest : String → Digest) (keys : List String) (map : DigestMap)
    (key : String) :
    (map.insertAll digest keys).get? key =
      if key ∈ keys then some (digest key) else map.get? key := by
  induction keys generalizing map with
  | nil => simp [DigestMap.insertAll]
  | cons first rest ih =>
    rw [DigestMap.insertAll, List.foldl_cons, ← DigestMap.insertAll, ih, get?_insert]
    by_cases hrest : key ∈ rest
    · simp [hrest]
    · by_cases hfirst : key = first <;> simp [hrest, hfirst]

/-! ## Equal maps, and parts of maps -/

theorem ext_get? {m n : DigestMap} (h : ∀ key, m.get? key = n.get? key) : m = n := by
  have hantisymm : Std.Antisymm fun a b : String × Digest => keyBefore a.1 b.1 :=
    ⟨fun a _ hab hba => absurd (keyBefore_trans hab hba) (keyBefore_irrefl a.1)⟩
  have hirrefl : Std.Irrefl fun a b : String × Digest => keyBefore a.1 b.1 :=
    ⟨fun a => keyBefore_irrefl a.1⟩
  refine DigestMap.ext (m.sorted.eq_of_mem_iff n.sorted fun {e} => ?_)
  rw [← get?_eq_some, ← get?_eq_some, h]

/-- The part of a map whose keys are kept. -/
def DigestMap.restrict (m : DigestMap) (keep : String → Bool) : DigestMap :=
  ⟨m.entries.filter fun e => keep e.1, m.sorted.filter _⟩

theorem get?_restrict (m : DigestMap) (keep : String → Bool) (key : String) :
    (m.restrict keep).get? key = if keep key then m.get? key else none := by
  refine Option.ext fun digest => ?_
  rw [get?_eq_some, DigestMap.restrict, List.mem_filter, ← get?_eq_some]
  cases keep key <;> simp

end DirDigest
