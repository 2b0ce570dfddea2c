import DirDigest.Deflate.Code

/-! # Decompression

A compressed stream is a sequence of blocks. A block is stored, or a sequence of literal bytes and
of copies of earlier output in a fixed code or in a code that the block brings along.

* `Inflation`: the output so far, and how reading goes on or why it cannot.
* `storedBlock`, `codedBlock`, `readCodes?`: the kinds of block.
* `inflate`: a whole stream. What follows its last block is not looked at.
-/

set_option autoImplicit false

namespace DirDigest.Deflate

/-- Why a stream cannot be decompressed: it breaks the rules, or it ends too early. -/
inductive InflateError
  | corrupt
  | incomplete
  deriving DecidableEq, Repr

/-- Output, and the rest of the stream or the failure that ended it. -/
structure Inflation where
  output : Array UInt8
  rest : Except InflateError BitSource

/-- A read that the end of the stream may cut short. -/
def orIncomplete {α : Type} (r : Option α) : Except InflateError α :=
  match r with
  | some a => .ok a
  | none => .error .incomplete

/-! ## Stored blocks -/

/-- A stored block: its length, the complement of its length, and its bytes. -/
def storedBlock (output : Array UInt8) (s : BitSource) : Inflation :=
  match s.align.bytes? 4 with
  | none => ⟨output, .error .incomplete⟩
  | some (head, s) =>
    let length := Bytes.toNumber (head.take 2)
    if length + Bytes.toNumber (head.drop 2) ≠ 0xFFFF then ⟨output, .error .corrupt⟩
    else
      match s.bytes? length with
      | some (bytes, s) => ⟨output ++ bytes, .ok s⟩
      | none => ⟨output ++ s.bytes, .error .incomplete⟩

/-! ## Literals and copies -/

/-- The shortest copy of each length symbol from 257 on, and the number of bits that lengthen it. -/
def lengthClasses : List (Nat × Nat) :=
  [(3, 0), (4, 0), (5, 0), (6, 0), (7, 0), (8, 0), (9, 0), (10, 0), (11, 1), (13, 1), (15, 1),
   (17, 1), (19, 2), (23, 2), (27, 2), (31, 2), (35, 3), (43, 3), (51, 3), (59, 3), (67, 4),
   (83, 4), (99, 4), (115, 4), (131, 5), (163, 5), (195, 5), (227, 5), (258, 0)]

/-- The least distance of each distance symbol, and the number of bits that add to it. -/
def distanceClasses : List (Nat × Nat) :=
  [(1, 0), (2, 0), (3, 0), (4, 0), (5, 1), (7, 1), (9, 2), (13, 2), (17, 3), (25, 3), (33, 4),
   (49, 4), (65, 5), (97, 5), (129, 6), (193, 6), (257, 7), (385, 7), (513, 8), (769, 8),
   (1025, 9), (1537, 9), (2049, 10), (3073, 10), (4097, 11), (6145, 11), (8193, 12), (12289, 12),
   (16385, 13), (24577, 13)]

/-- The value of a class with its additional bits. -/
def classValue (classes : List (Nat × Nat)) (k : Nat) (s : BitSource) :
    Except InflateError (Nat × BitSource) :=
  match classes[k]? with
  | none => .error .corrupt
  | some (base, width) =>
    match s.number? width with
    | none => .error .incomplete
    | some (extra, s) => .ok (base + extra, s)

/-- Repeats `count` bytes from `distance` bytes back; the copy may run into its own output. -/
def copyBack (distance : Nat) : (count : Nat) → Array UInt8 → Array UInt8
  | 0, output => output
  | count + 1, output =>
    copyBack distance count (output.push ((output[output.size - distance]?).getD 0))

/-- The distance of a copy. -/
def readDistance (distances : Code) (s : BitSource) : Except InflateError (Nat × BitSource) :=
  match distances.symbol? s with
  | none => .error .incomplete
  | some (none, _) => .error .corrupt
  | some (some symbol, s) => classValue distanceClasses symbol s

/-- The length and the distance of a copy whose length symbol has been read. -/
def readCopy (distances : Code) (symbol : Nat) (s : BitSource) :
    Except InflateError (Nat × Nat × BitSource) :=
  match classValue lengthClasses (symbol - 257) s with
  | .error e => .error e
  | .ok (length, s) =>
    match readDistance distances s with
    | .error e => .error e
    | .ok (distance, s) => .ok (length, distance, s)

/-- The symbols of a block up to its end, at most `fuel` of them. -/
def codedBlock (literals distances : Code) : (fuel : Nat) → Array UInt8 → BitSource → Inflation
  | 0, output, _ => ⟨output, .error .incomplete⟩
  | fuel + 1, output, s =>
    match literals.symbol? s with
    | none => ⟨output, .error .incomplete⟩
    | some (none, _) => ⟨output, .error .corrupt⟩
    | some (some symbol, s) =>
      if symbol < 256 then codedBlock literals distances fuel (output.push (UInt8.ofNat symbol)) s
      else if symbol = 256 then ⟨output, .ok s⟩
      else
        match readCopy distances symbol s with
        | .error e => ⟨output, .error e⟩
        | .ok (length, distance, s) =>
          if output.size < distance then ⟨output, .error .corrupt⟩
          else codedBlock literals distances fuel (copyBack distance length output) s

/-! ## Codes of a block -/

/-- The fixed literal code. -/
def fixedLiterals : Code :=
  .ofLengths (List.replicate 144 8 ++ List.replicate 112 9 ++ List.replicate 24 7 ++
    List.replicate 8 8)

/-- The fixed distance code. -/
def fixedDistances : Code := .ofLengths (List.replicate 32 5)

/-- The order in which the lengths of the code for code lengths are written. -/
def lengthOrder : List Nat := [16, 17, 18, 0, 8, 7, 9, 6, 10, 5, 11, 4, 12, 3, 13, 2, 14, 1, 15]

/-- `count` numbers of `width` bits. -/
def numbers? (width : Nat) : (count : Nat) → BitSource → Option (List Nat × BitSource)
  | 0, s => some ([], s)
  | count + 1, s =>
    match s.number? width with
    | none => none
    | some (n, s) =>
      match numbers? width count s with
      | none => none
      | some (ns, s) => some (n :: ns, s)

/-- The length that `lengthOrder` and a list of written lengths give a symbol. -/
def writtenLength (written : List Nat) (symbol : Nat) : Nat :=
  ((lengthOrder.zip written).lookup symbol).getD 0

/-- A run of code lengths: the number of repetitions, and the length repeated. -/
def readRun (symbol : Nat) (last : Option Nat) (s : BitSource) :
    Except InflateError (Nat × Nat × BitSource) :=
  match symbol with
  | 16 => do
    let (extra, s) ← orIncomplete (s.number? 2)
    match last with
    | none => .error .corrupt
    | some length => .ok (3 + extra, length, s)
  | 17 => do
    let (extra, s) ← orIncomplete (s.number? 3)
    .ok (3 + extra, 0, s)
  | 18 => do
    let (extra, s) ← orIncomplete (s.number? 7)
    .ok (11 + extra, 0, s)
  | _ => .ok (1, symbol, s)

/-- The code lengths that a block writes, the last one first, until there are `total`. Where the
code for code lengths is empty, every bit stands for length zero. -/
def readLengths (code : Code) (total : Nat) : (fuel : Nat) → List Nat → BitSource →
    Except InflateError (List Nat × BitSource)
  | 0, lengths, s => .ok (lengths, s)
  | fuel + 1, lengths, s =>
    if lengths.length = total then .ok (lengths, s)
    else
      match code.symbol? s with
      | none => .error .incomplete
      | some (symbol, s) =>
        match readRun (symbol.getD 0) lengths.head? s with
        | .error e => .error e
        | .ok (count, length, s) =>
          if total < lengths.length + count then .error .corrupt
          else readLengths code total fuel (List.replicate count length ++ lengths) s

/-- Whether a code can be used: it is complete, it has no codes, or it has one code of one bit. -/
def usable (c : Code) : Bool := c.isComplete || c.isEmpty || c.isSingle

/-- The literal and the distance code that a block brings along. -/
def readCodes (s : BitSource) : Except InflateError (Code × Code × BitSource) := do
  let (literalCount, s) ← orIncomplete (s.number? 5)
  let (distanceCount, s) ← orIncomplete (s.number? 5)
  let (writtenCount, s) ← orIncomplete (s.number? 4)
  let literalCount := literalCount + 257
  let distanceCount := distanceCount + 1
  if 286 < literalCount ∨ 30 < distanceCount then .error .corrupt
  let (written, s) ← orIncomplete (numbers? 3 (writtenCount + 4) s)
  let lengthCode := Code.ofLengths ((List.range 19).map (writtenLength written))
  if !(lengthCode.isComplete || lengthCode.isEmpty) then .error .corrupt
  let total := literalCount + distanceCount
  let (reversed, s) ← readLengths lengthCode total total [] s
  let lengths := reversed.reverse
  if lengths[256]? = some 0 then .error .corrupt
  let literals := Code.ofLengths (lengths.take literalCount)
  let distances := Code.ofLengths (lengths.drop literalCount)
  if usable literals && usable distances then .ok (literals, distances, s) else .error .corrupt

/-! ## Whole streams -/

/-- One block after its first bit: whether it was read, and the output with it. -/
def block (output : Array UInt8) (s : BitSource) : Inflation :=
  match s.number? 2 with
  | none => ⟨output, .error .incomplete⟩
  | some (kind, s) =>
    match kind with
    | 0 => storedBlock output s
    | 1 => codedBlock fixedLiterals fixedDistances (s.size + 1) output s
    | 2 =>
      match readCodes s with
      | .error e => ⟨output, .error e⟩
      | .ok (literals, distances, s) => codedBlock literals distances (s.size + 1) output s
    | _ => ⟨output, .error .corrupt⟩

/-- The blocks of a stream up to the last one, at most `fuel` of them. -/
def blocks : (fuel : Nat) → Array UInt8 → BitSource → Inflation
  | 0, output, _ => ⟨output, .error .incomplete⟩
  | fuel + 1, output, s =>
    match s.bit? with
    | none => ⟨output, .error .incomplete⟩
    | some (final, s) =>
      match block output s with
      | ⟨output, .ok s⟩ => if final then ⟨output, .ok s⟩ else blocks fuel output s
      | ⟨output, .error e⟩ => ⟨output, .error e⟩

/-- Decompresses a stream. -/
def inflate (bytes : Bytes) : Inflation :=
  let s := BitSource.ofBytes bytes
  blocks (s.size + 1) #[] s

end DirDigest.Deflate
