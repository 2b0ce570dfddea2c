import DirDigest.DigestMap

/-! # Differences of two digest maps

Every key of an old and a new map is added, removed, changed or unchanged.

* `Difference`, `Change`: the classes of keys, in byte order.
* `difference`: the difference of two maps.
-/

set_option autoImplicit false

namespace DirDigest

/-- A key of both maps with two digests. -/
structure Change where
  path : String
  old : Digest
  new : Digest
  deriving DecidableEq, Repr

/-- How two maps differ. -/
structure Difference where
  added : List String
  removed : List String
  changed : List Change
  unchanged : Nat
  deriving DecidableEq, Repr

/-- Whether nothing was added, removed or changed. -/
def Difference.isEmpty (d : Difference) : Bool :=
  d.added.isEmpty && d.removed.isEmpty && d.changed.isEmpty

/-- The number of keys added, removed or changed. -/
def Difference.total (d : Difference) : Nat :=
  d.added.length + d.removed.length + d.changed.length

/-- The change of an entry of the old map, if the new map gives its key another digest. -/
def DigestMap.change? (new : DigestMap) (e : String × Digest) : Option Change :=
  match new.get? e.1 with
  | some d => if d = e.2 then none else some ⟨e.1, e.2, d⟩
  | none => none

/-- The difference from an old map to a new one. -/
def difference (old new : DigestMap) : Difference where
  added := new.keys.filter fun k => (old.get? k).isNone
  removed := old.keys.filter fun k => (new.get? k).isNone
  changed := old.entries.filterMap new.change?
  unchanged := old.entries.countP fun e => new.get? e.1 = some e.2

end DirDigest
