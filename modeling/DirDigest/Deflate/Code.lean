import DirDigest.Deflate.Bits

/-! # Canonical codes

A code is told by the code length of each symbol: codes of one length are consecutive numbers in
the order of the symbols, and longer codes follow on shorter ones.

* `Code.ofLengths`: the code of a list of lengths.
* `Code.defect`, `Code.isComplete`: how many codes of the greatest length are missing.
* `Code.symbol?`: the next symbol of a bit stream.
-/

set_option autoImplicit false

namespace DirDigest.Deflate

/-- The greatest length of a code. -/
def maxCodeLength : Nat := 15

/-- A canonical code: the number of codes of each length from one up to the greatest length that
is used, and the symbols in the order of their codes. -/
structure Code where
  counts : List Nat
  symbols : Array Nat

/-- The symbols of a given code length, in order. -/
def symbolsOfLength (lengths : List Nat) (length : Nat) : List Nat :=
  (lengths.zipIdx.filter fun e => e.1 == length).map Prod.snd

/-- The code of a list of code lengths, one for each symbol; length zero means that a symbol does
not occur. A code without symbols still has codes of length one, none of which is in use. -/
def Code.ofLengths (lengths : List Nat) : Code :=
  let longest := max 1 (lengths.foldl max 0)
  let groups := (List.range longest).map fun k => symbolsOfLength lengths (k + 1)
  ⟨groups.map List.length, (groups.flatMap id).toArray⟩

/-- Whether a code has no symbols. -/
def Code.isEmpty (c : Code) : Bool := c.symbols.isEmpty

/-- The part of all bit strings of length `maxCodeLength` that begin with a code, counted in bit
strings. -/
def Code.covered (c : Code) : Nat :=
  c.counts.zipIdx.foldl (fun n e => n + e.1 <<< (maxCodeLength - 1 - e.2)) 0

/-- Whether every bit string begins with exactly one code. -/
def Code.isComplete (c : Code) : Bool := c.covered == 1 <<< maxCodeLength

/-- Whether a code consists of a single code of length one. -/
def Code.isSingle (c : Code) : Bool := c.counts == [1]

/-- Walks the lengths of a code: `code` is the number in the bits read so far, `first` the first
code of the present length, and `index` the place of its symbol. -/
def Code.walk (symbols : Array Nat) : (counts : List Nat) → (code first index : Nat) → BitSource →
    Option (Option Nat × BitSource)
  | [], _, _, _, s => some (none, s)
  | count :: counts, code, first, index, s =>
    match s.bit? with
    | none => none
    | some (b, s) =>
      let code := 2 * code + b.toNat
      let first := 2 * first
      if code < first + count then some (symbols[index + (code - first)]?, s)
      else Code.walk symbols counts code (first + count) (index + count) s

/-- The symbol whose code comes next. The inner result is missing if no code fits; the outer one if
the stream ends before that is known. -/
def Code.symbol? (c : Code) (s : BitSource) : Option (Option Nat × BitSource) :=
  Code.walk c.symbols c.counts 0 0 0 s

end DirDigest.Deflate
