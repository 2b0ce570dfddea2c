import DirDigest.Lookup
import DirDigest.Reading

/-! # Named accumulators

Several checksums side by side, each under a name: `Ledger` holds them and `Ledger.step` performs
one operation on them. A copy is independent of its source from then on.
-/

set_option autoImplicit false

namespace DirDigest

/-- Checksums by name; the first entry of a name counts. -/
structure Ledger where
  entries : List (String × Checksum) := []

/-- The checksum under a name. -/
def Ledger.get? (l : Ledger) (name : String) : Option Checksum := l.entries.lookup name

/-- Puts a checksum under a name. -/
def Ledger.set (l : Ledger) (name : String) (c : Checksum) : Ledger :=
  ⟨(name, c) :: l.entries⟩

theorem Ledger.get?_set (l : Ledger) (name other : String) (c : Checksum) :
    (l.set name c).get? other = if other = name then some c else l.get? other :=
  lookup_entry other (name, c) l.entries

/-- An operation on named accumulators. -/
inductive LedgerStep
  | create (name : String)
  | copy (name source : String)
  | update (name : String) (bytes : Bytes)
  | feed (name : String) (script : Script) (capacity : Nat)

/-- The accumulator that an operation changes. -/
def LedgerStep.target : LedgerStep → String
  | .create name | .copy name _ | .update name _ | .feed name _ _ => name

/-- What an operation reports: the checksum afterwards, and for a feed also its outcome. -/
structure LedgerAnswer where
  value : Digest
  run : Option Feed := none

/-- Performs one operation; without the accumulator that it reads from, there is nothing to do. -/
def Ledger.step (l : Ledger) : LedgerStep → Option (Ledger × LedgerAnswer)
  | .create name => some (l.set name .empty, { value := Checksum.empty.value })
  | .copy name source =>
    (l.get? source).map fun c => (l.set name c, { value := c.value })
  | .update name bytes =>
    (l.get? name).map fun c =>
      let c := c.update bytes
      (l.set name c, { value := c.value })
  | .feed name script capacity =>
    (l.get? name).map fun c =>
      let run := DirDigest.feed script c { capacity := capacity }
      (l.set name run.checksum, { value := run.checksum.value, run := some run })

end DirDigest
