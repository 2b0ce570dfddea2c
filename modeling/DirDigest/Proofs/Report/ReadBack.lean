import DirDigest.Lookup
import DirDigest.Proofs.Report.JsonText
import DirDigest.Proofs.Report.Lines

/-! # Reports read back

* `MapDocument`, `FileDocument`, `DiffDocument`: what the reports to process say; each is read from
  a text by `ofText?`.
* `IsHexOf`: a text writes a digest in hexadecimal digits, at least eight of them.
* `reports_readBack`: the reports to process and the reports to read give back what was reported.
-/

set_option autoImplicit false

namespace DirDigest

/-! ## Members -/

namespace Json

/-- The member of an object under a key. -/
def member? (key : String) : Json → Option Json
  | .object members => members.lookup key
  | _ => none

/-- A member of an object, read as what it should be. -/
def read? {α : Type} (j : Json) (key : String) (as : Json → Option α) : Option α :=
  (j.member? key).bind as

theorem read?_first {α : Type} (key : String) (value : Json) (members : List (String × Json))
    (as : Json → Option α) : (object ((key, value) :: members)).read? key as = as value := by
  rw [read?, member?, List.lookup_cons_self]
  rfl

theorem read?_later {α : Type} {key other : String} (h : key ≠ other) (value : Json)
    (members : List (String × Json)) (as : Json → Option α) :
    (object ((other, value) :: members)).read? key as = (object members).read? key as := by
  rw [read?, member?, List.lookup_cons, beq_eq_false_iff_ne.2 h]
  rfl

/-- A value that is true or false. -/
def asBool? : Json → Option Bool
  | .bool b => some b
  | _ => none

/-- A value that is a number. -/
def asNumber? : Json → Option Nat
  | .number n => some n
  | _ => none

/-- A value that is a text. -/
def asText? : Json → Option String
  | .text s => some s
  | _ => none

/-- The items of a value that is a list. -/
def asList? : Json → Option (List Json)
  | .list items => some items
  | _ => none

/-- The items of a list of texts. -/
def asTexts? (j : Json) : Option (List String) := do (← j.asList?).mapM asText?

/-- A value that is a digest, written as a number. -/
def asDigest? (j : Json) : Option Digest := do digest? (← j.asNumber?)

/-- A member whose value is a digest. -/
def entry? (member : String × Json) : Option (String × Digest) :=
  member.2.asDigest?.map (member.1, ·)

/-- The keys and digests of an object all of whose values are digests. -/
def asEntries? : Json → Option (List (String × Digest))
  | .object members => members.mapM entry?
  | _ => none

end Json

/-! ## Documents -/

/-- The data of a report of an operation that succeeded. -/
def reportData? (operation : String) (s : String) : Option Json := do
  let j ← Json.ofText? s
  let name ← j.read? "operation" Json.asText?
  let status ← j.read? "status" Json.asText?
  if name = operation ∧ status = "success" then j.member? "data" else none

/-- What a report says about a digest map. -/
structure MapDocument where
  root : String
  entries : Nat
  digests : List (String × Digest)

/-- Reads the report of a digest map. -/
def MapDocument.ofText? (s : String) : Option MapDocument := do
  let data ← reportData? "digest" s
  let root ← data.read? "root" Json.asText?
  let entries ← data.read? "entries" Json.asNumber?
  let digests ← data.read? "digests" Json.asEntries?
  some ⟨root, entries, digests⟩

/-- What a report says about the digest of a file. -/
structure FileDocument where
  path : String
  digest : Digest
  hex : String

/-- Reads the report of the digest of a file. -/
def FileDocument.ofText? (s : String) : Option FileDocument := do
  let data ← reportData? "file" s
  let path ← data.read? "path" Json.asText?
  let digest ← data.read? "digest" Json.asDigest?
  let hex ← data.read? "hex" Json.asText?
  some ⟨path, digest, hex⟩

/-- What a report says about a change. -/
structure ChangeDocument where
  change : Change
  oldHex : String
  newHex : String

/-- Reads a change from a report of a difference. -/
def ChangeDocument.ofJson? (j : Json) : Option ChangeDocument := do
  let path ← j.read? "path" Json.asText?
  let old ← j.read? "old" Json.asDigest?
  let new ← j.read? "new" Json.asDigest?
  let oldHex ← j.read? "old_hex" Json.asText?
  let newHex ← j.read? "new_hex" Json.asText?
  some ⟨⟨path, old, new⟩, oldHex, newHex⟩

/-- Reads all changes of a report. -/
def ChangeDocument.listOfJson? (j : Json) : Option (List ChangeDocument) := do
  (← j.asList?).mapM ChangeDocument.ofJson?

/-- What a report says about the difference of two trees. -/
structure DiffDocument where
  oldRoot : String
  newRoot : String
  identical : Bool
  added : List String
  removed : List String
  changed : List ChangeDocument
  unchanged : Nat

/-- Reads the report of the difference of two trees. -/
def DiffDocument.ofText? (s : String) : Option DiffDocument := do
  let data ← reportData? "diff" s
  let oldRoot ← data.read? "old_root" Json.asText?
  let newRoot ← data.read? "new_root" Json.asText?
  let identical ← data.read? "identical" Json.asBool?
  let added ← data.read? "added" Json.asTexts?
  let removed ← data.read? "removed" Json.asTexts?
  let changed ← data.read? "changed" ChangeDocument.listOfJson?
  let unchanged ← data.read? "unchanged" Json.asNumber?
  some ⟨oldRoot, newRoot, identical, added, removed, changed, unchanged⟩

/-- The difference that a report is about. -/
def DiffDocument.difference (r : DiffDocument) : Difference :=
  ⟨r.added, r.removed, r.changed.map ChangeDocument.change, r.unchanged⟩

/-! ## Documents read back -/

/-- A text writes a digest in hexadecimal digits, at least eight of them. -/
def IsHexOf (hex : String) (d : Digest) : Prop :=
  number? 16 hex.toList = some d.toNat ∧ 8 ≤ hex.length

theorem isHexOf_hexDigest (d : Digest) : IsHexOf (hexDigest d) d :=
  ⟨number?_hexDigest d, le_length_hexDigest d⟩

theorem reportData?_successReport (operation : String) (data : Json) :
    reportData? operation (successReport operation data).indented = some data := by
  rw [reportData?, Json.ofText?_indented]
  simp [successReport, Json.read?_first, Json.read?_later, Json.member?, Json.asText?,
    lookup_entry]

theorem asDigest?_digestNumber (d : Digest) : (digestNumber d).asDigest? = some d :=
  digest?_toNat d

theorem entry?_digestNumber (e : String × Digest) :
    Json.entry? (e.1, digestNumber e.2) = some e := by
  rw [Json.entry?, asDigest?_digestNumber]
  rfl

theorem asTexts?_texts (texts : List String) : (Json.list (texts.map Json.text)).asTexts? =
    some texts := by
  have htext : ∀ text, Json.asText? (.text text) = some (id text) := fun _ => rfl
  have hread := mapM_map htext texts
  rwa [List.map_id] at hread

theorem mapDocument_map (root : Path) (m : DigestMap) :
    MapDocument.ofText? (Format.machine.map root m) =
      some ⟨root.display, m.size, m.entries⟩ := by
  have hdigests : (Json.object (m.entries.map fun e => (e.1, digestNumber e.2))).asEntries? =
      some m.entries := by
    have hread := mapM_map (f := id) (fun e : String × Digest => entry?_digestNumber e) m.entries
    rwa [List.map_id] at hread
  rw [Format.map, MapDocument.ofText?, mapReport, reportData?_successReport]
  simp [Json.read?_first, Json.read?_later, pathText, Json.asText?, Json.asNumber?, hdigests]

theorem fileDocument_file (path : Path) (d : Digest) :
    FileDocument.ofText? (Format.machine.file path d) = some ⟨path.display, d, hexDigest d⟩ := by
  rw [Format.file, FileDocument.ofText?, fileReport, reportData?_successReport]
  simp [Json.read?_first, Json.read?_later, pathText, digestText, Json.asText?,
    asDigest?_digestNumber]

/-- What a report says about a change of a difference. -/
def ChangeDocument.ofChange (c : Change) : ChangeDocument := ⟨c, hexDigest c.old, hexDigest c.new⟩

theorem changeDocument_change (c : Change) :
    ChangeDocument.ofJson? (changeReport c) = some (ChangeDocument.ofChange c) := by
  rw [ChangeDocument.ofJson?, changeReport]
  simp [Json.read?_first, Json.read?_later, digestText, Json.asText?, asDigest?_digestNumber,
    ChangeDocument.ofChange]

theorem listOfJson?_changes (changes : List Change) :
    ChangeDocument.listOfJson? (.list (changes.map changeReport)) =
      some (changes.map ChangeDocument.ofChange) :=
  mapM_map changeDocument_change changes

theorem diffDocument_diff (old new : Path) (d : Difference) :
    DiffDocument.ofText? (Format.machine.diff old new d) =
      some ⟨old.display, new.display, d.isEmpty, d.added, d.removed,
        d.changed.map ChangeDocument.ofChange, d.unchanged⟩ := by
  rw [Format.diff, DiffDocument.ofText?, diffReport, reportData?_successReport]
  simp [Json.read?_first, Json.read?_later, pathText, Json.asText?, Json.asBool?,
    Json.asNumber?, asTexts?_texts, listOfJson?_changes]

/-! ## Reports read back -/

theorem Difference.isEmpty_iff (d : Difference) :
    d.isEmpty = true ↔ d.added = [] ∧ d.removed = [] ∧ d.changed = [] := by
  simp [Difference.isEmpty, and_assoc]

/-- Reports to process give back what was reported, whatever the paths are; `hex` texts write the
digests beside them. Reports to read that are neither verbose nor in colours give back the entries
of a map and the paths of a difference, unless a path has a line feed. -/
theorem reports_readBack (style : Style) (hverbose : style.verbose = false)
    (hcolors : style.colors = false) (root old new path : Path) (m : DigestMap) (d : Difference)
    (digest : Digest) :
    MapDocument.ofText? (Format.machine.map root m) = some ⟨root.display, m.size, m.entries⟩ ∧
    (∃ r, DiffDocument.ofText? (Format.machine.diff old new d) = some r ∧
      r.oldRoot = old.display ∧ r.newRoot = new.display ∧ r.difference = d ∧
      (r.identical = true ↔ d.added = [] ∧ d.removed = [] ∧ d.changed = []) ∧
      ∀ c ∈ r.changed, IsHexOf c.oldHex c.change.old ∧ IsHexOf c.newHex c.change.new) ∧
    (∃ r, FileDocument.ofText? (Format.machine.file path digest) = some r ∧
      r.path = path.display ∧ r.digest = digest ∧ IsHexOf r.hex digest) ∧
    ((∀ k ∈ m.keys, '\n' ∉ k.toList) →
      entriesOfText? ((Format.human style).map root m) = some m.entries) ∧
    (lineFeed ∉ old.bytes → lineFeed ∉ new.bytes →
      (∀ mark, ∀ p ∈ d.pathsOf mark, '\n' ∉ p.toList) →
      pathsMarked '+' ((Format.human style).diff old new d) = d.added ∧
      pathsMarked '-' ((Format.human style).diff old new d) = d.removed ∧
      pathsMarked '~' ((Format.human style).diff old new d) = d.changed.map Change.path) := by
  refine ⟨mapDocument_map root m, ⟨_, diffDocument_diff old new d, rfl, rfl, ?_, d.isEmpty_iff, ?_⟩,
    ⟨_, fileDocument_file path digest, rfl, rfl, isHexOf_hexDigest digest⟩,
    entriesOfText?_map hverbose root, fun hold hnew hpaths => ?_⟩
  · have hchanges : (d.changed.map ChangeDocument.ofChange).map ChangeDocument.change = d.changed := by
      rw [List.map_map]
      exact List.map_id d.changed
    rw [DiffDocument.difference, hchanges]
  · intro c hc
    obtain ⟨change, -, rfl⟩ := List.mem_map.1 hc
    exact ⟨isHexOf_hexDigest change.old, isHexOf_hexDigest change.new⟩
  · have hmarked := pathsMarked_diff hverbose hcolors hold hnew hpaths
    exact ⟨hmarked .added rfl, hmarked .removed rfl, hmarked .changed rfl⟩

/-- A map with quotes, a backslash, control characters and a digest of nine digits. -/
def quaintMap : DigestMap where
  entries := [("a \"b\" \\", 0x1234567AB), ("tab\tbell\x07", 0)]
  sorted := by decide

/-- A difference with a key of each mark. -/
def quaintDifference : Difference := ⟨["+ new"], ["old  \"1\""], [⟨"~", 7, 0x1234567AB⟩], 3⟩

theorem reports_readBack_sample :
    (∃ r, MapDocument.ofText? (Format.machine.map "tree" quaintMap) = some r ∧ r.entries = 2 ∧
      r.digests = quaintMap.entries) ∧
    (∃ r, DiffDocument.ofText? (Format.machine.diff "old" "new" quaintDifference) = some r ∧
      r.difference = quaintDifference ∧ r.identical = false) ∧
    entriesOfText? ((Format.human {}).map "tree" quaintMap) = some quaintMap.entries ∧
    pathsMarked '+' ((Format.human {}).diff "old" "new" quaintDifference) = ["+ new"] ∧
    pathsMarked '~' ((Format.human {}).diff "old" "new" quaintDifference) = ["~"] := by
  have hkeys : ∀ k ∈ quaintMap.keys, '\n' ∉ k.toList := by decide
  have hpaths : ∀ mark, ∀ p ∈ quaintDifference.pathsOf mark, '\n' ∉ p.toList := by
    intro mark
    cases mark <;> decide
  obtain ⟨hmap, ⟨r, hdiff, -, -, hsame, hidentical, -⟩, -, hentries, hmarks⟩ :=
    reports_readBack {} rfl rfl "tree" "old" "new" "file" quaintMap quaintDifference 0
  obtain ⟨hadded, -, hchanged⟩ := hmarks (by decide) (by decide) hpaths
  refine ⟨⟨_, hmap, rfl, rfl⟩, ⟨r, hdiff, hsame, ?_⟩, hentries hkeys, hadded, hchanged⟩
  exact Bool.eq_false_iff.2 fun h => absurd (hidentical.1 h).1 (by decide)

end DirDigest
