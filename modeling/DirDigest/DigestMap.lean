import DirDigest.Checksum

/-! # Digest maps

A digest map gives digests to keys. Its entries are in byte order of the keys, without repetition,
so two maps with the same content are equal.

* `DigestMap`: the entries with their order.
* `DigestMap.insert`, `DigestMap.ofList`: the later digest of a key counts.
* `DigestMap.get?`: the digest of a key.
-/

set_option autoImplicit false

namespace DirDigest

/-- Whether the bytes of a key come before those of another one. -/
def keyBefore (a b : String) : Prop := utf8 a < utf8 b

instance (a b : String) : Decidable (keyBefore a b) := inferInstanceAs (Decidable (utf8 a < utf8 b))

theorem keyBefore_trans {a b c : String} (h : keyBefore a b) (h' : keyBefore b c) :
    keyBefore a c := List.lt_trans h h'

theorem keyBefore_of_not {a b : String} (h : ¬ keyBefore a b) (hne : a ≠ b) : keyBefore b a :=
  bytes_lt_of_not_lt h fun e => hne (utf8_injective e)

theorem keyBefore_irrefl (a : String) : ¬ keyBefore a a := List.lt_irrefl _

/-- Digests by key, in byte order of the keys. -/
structure DigestMap where
  entries : List (String × Digest)
  sorted : entries.Pairwise fun a b => keyBefore a.1 b.1

namespace DigestMap

/-- The map without entries. -/
def empty : DigestMap := ⟨[], List.Pairwise.nil⟩

/-- Puts a digest under a key of a sorted list of entries. -/
def insertEntry (key : String) (digest : Digest) : List (String × Digest) → List (String × Digest)
  | [] => [(key, digest)]
  | e :: rest =>
    if keyBefore key e.1 then (key, digest) :: e :: rest
    else if key = e.1 then (key, digest) :: rest
    else e :: insertEntry key digest rest

theorem mem_insertEntry {key : String} {digest : Digest} {l : List (String × Digest)}
    {e : String × Digest} (h : e ∈ insertEntry key digest l) : e = (key, digest) ∨ e ∈ l := by
  induction l with
  | nil => exact .inl (by simpa [insertEntry] using h)
  | cons x rest ih =>
    unfold insertEntry at h
    split at h
    · rcases List.mem_cons.1 h with h | h
      · exact .inl h
      · exact .inr h
    · split at h
      · rcases List.mem_cons.1 h with h | h
        · exact .inl h
        · exact .inr (List.mem_cons_of_mem _ h)
      · rcases List.mem_cons.1 h with h | h
        · exact .inr (h ▸ List.mem_cons_self)
        · exact (ih h).imp id (List.mem_cons_of_mem _)

theorem sorted_insertEntry (key : String) (digest : Digest) {l : List (String × Digest)}
    (hl : l.Pairwise fun a b => keyBefore a.1 b.1) :
    (insertEntry key digest l).Pairwise fun a b => keyBefore a.1 b.1 := by
  induction l with
  | nil => simp [insertEntry]
  | cons x rest ih =>
    have hx := (List.pairwise_cons.1 hl).1
    have hrest := (List.pairwise_cons.1 hl).2
    unfold insertEntry
    split
    · rename_i hk
      refine List.pairwise_cons.2 ⟨fun e he => ?_, hl⟩
      rcases List.mem_cons.1 he with rfl | he
      · exact hk
      · exact keyBefore_trans hk (hx e he)
    · rename_i hk
      split
      · rename_i heq
        exact List.pairwise_cons.2 ⟨fun e he => heq ▸ hx e he, hrest⟩
      · rename_i hne
        refine List.pairwise_cons.2 ⟨fun e he => ?_, ih hrest⟩
        rcases mem_insertEntry he with rfl | he
        · exact keyBefore_of_not hk hne
        · exact hx e he

/-- The map with a digest under a key, in the place of an earlier one. -/
def insert (m : DigestMap) (key : String) (digest : Digest) : DigestMap :=
  ⟨insertEntry key digest m.entries, sorted_insertEntry key digest m.sorted⟩

/-- The map of a list of entries; the last one of a key counts. -/
def ofList (l : List (String × Digest)) : DigestMap :=
  l.foldl (fun m e => m.insert e.1 e.2) empty

/-- The digest of a key. -/
def get? (m : DigestMap) (key : String) : Option Digest := m.entries.lookup key

/-- The keys in byte order. -/
def keys (m : DigestMap) : List String := m.entries.map Prod.fst

/-- The number of keys. -/
def size (m : DigestMap) : Nat := m.entries.length

theorem ext {m n : DigestMap} (h : m.entries = n.entries) : m = n := by
  cases m; cases n; cases h; rfl

end DigestMap

instance : DecidableEq DigestMap := fun m n =>
  if h : m.entries = n.entries then .isTrue (DigestMap.ext h)
  else .isFalse fun e => h (e ▸ rfl)

end DirDigest
