import DirDigest.Proofs.Reading
import DirDigest.Zip.Content

/-! # What the content of an entry is

* `Entry.decompress`, `Entry.unpack`: the content of stored bytes, unchecked and checked against
  the checksum of the entry.
* `Archive.content`: the content of an entry of an archive, or why it has none.
* `feed_entry`: draining the stream of an entry absorbs its content, or ends in its fault.
-/

set_option autoImplicit false

namespace DirDigest.Zip

/-- The decompressed content of stored bytes. -/
def Entry.decompress (e : Entry) (stored : Bytes) : Except EntryFault Bytes :=
  if e.method = deflatedMethod then
    match Deflate.inflate stored with
    | ⟨output, .ok _⟩ => .ok output.toList
    | ⟨_, .error .corrupt⟩ => .error .corruptStream
    | ⟨_, .error .incomplete⟩ => .error .incompleteStream
  else .ok stored

/-- The decompressed content of stored bytes, if it has the checksum of the entry. -/
def Entry.unpack (e : Entry) (stored : Bytes) : Except EntryFault Bytes :=
  match e.decompress stored with
  | .error fault => .error fault
  | .ok content => if (digestBytes content).toNat = e.crc then .ok content else .error .checksum

/-- The content of an entry that can be located and opened, and whose stored bytes unpack. -/
def Archive.content (a : Archive) (e : Entry) : Except EntryFault Bytes :=
  match a.locate e with
  | .error fault => .error fault
  | .ok start =>
    match a.open e with
    | .error fault => .error fault
    | .ok _ => e.unpack (a.stored e start)

/-! ## Streams of entries -/

theorem EntryFault.kind_ne_interrupted (fault : EntryFault) :
    fault.toIoError.kind ≠ .interrupted := by
  cases fault <;> decide

@[simp] theorem failure?_fault (content : Bytes) (fault : EntryFault) :
    Script.failure? [.data content, .fail fault.toIoError] = some fault.toIoError := by
  simp [Script.failure?, fault.kind_ne_interrupted]

@[simp] theorem failure?_data (content : Bytes) : Script.failure? [.data content] = none := rfl

@[simp] theorem delivered_data (content : Bytes) : Script.delivered [.data content] = content := by
  simp [Script.delivered]

theorem checkedScript_failure? (crc : Nat) (content : Bytes) :
    (checkedScript crc content).failure? =
      if (digestBytes content).toNat = crc then none else some EntryFault.checksum.toIoError := by
  unfold checkedScript
  split <;> simp

theorem checkedScript_delivered {crc : Nat} {content : Bytes}
    (h : (digestBytes content).toNat = crc) : (checkedScript crc content).delivered = content := by
  simp [checkedScript, h]

/-- The stream of an entry ends in a failure exactly if the stored bytes do not unpack. -/
theorem contentScript_spec (e : Entry) (stored : Bytes) :
    match e.unpack stored with
    | .ok content => (contentScript e stored).failure? = none ∧
        (contentScript e stored).delivered = content
    | .error fault => (contentScript e stored).failure? = some fault.toIoError := by
  unfold Entry.unpack Entry.decompress contentScript
  by_cases hm : e.method = deflatedMethod
  · simp only [hm, if_true]
    rcases Deflate.inflate stored with ⟨output, rest | rest⟩
    · cases rest <;> simp
    · by_cases hc : (digestBytes output.toList).toNat = e.crc
      · simp [hc, checkedScript_failure?, checkedScript_delivered]
      · simp [hc, checkedScript_failure?]
  · simp only [hm, if_false]
    by_cases hc : (digestBytes stored).toNat = e.crc
    · simp [hc, checkedScript_failure?, checkedScript_delivered]
    · simp [hc, checkedScript_failure?]

theorem Archive.open_eq_ok {a : Archive} {e : Entry} {script : Script} (h : a.open e = .ok script) :
    ∃ start, a.locate e = .ok start ∧ script = contentScript e (a.stored e start) := by
  unfold Archive.open at h
  split at h
  · cases h
  · rename_i start hstart
    split at h
    · cases h
    · split at h
      · cases h
      · split at h
        · cases h
        · cases h
          exact ⟨start, hstart, rfl⟩

theorem Archive.open_of_locate_error {a : Archive} {e : Entry} {fault : EntryFault}
    (h : a.locate e = .error fault) : a.open e = .error fault := by
  simp only [Archive.open, h]

theorem Archive.content_of_open {a : Archive} {e : Entry} {fault : EntryFault}
    (h : a.open e = .error fault) : a.content e = .error fault := by
  unfold Archive.content
  cases hl : a.locate e with
  | error f =>
    have hf := Archive.open_of_locate_error hl
    rw [h] at hf
    cases hf
    rfl
  | ok start => simp only [h]

theorem feed_entry {a : Archive} {e : Entry} {script : Script} (h : a.open e = .ok script)
    (checksum : Checksum) {buffer : ReadBuffer} (hb : 0 < buffer.capacity) :
    match a.content e with
    | .ok content =>
      (feed script checksum buffer).result = .ok content.length ∧
        (feed script checksum buffer).checksum = checksum.update content
    | .error fault => (feed script checksum buffer).result = .error fault.toIoError := by
  obtain ⟨start, hstart, rfl⟩ := Archive.open_eq_ok h
  have hcontent : a.content e = e.unpack (a.stored e start) := by
    simp only [Archive.content, hstart, h]
  obtain ⟨hr, hs, -⟩ := feed_spec (contentScript e (a.stored e start)) checksum hb
  have hspec := contentScript_spec e (a.stored e start)
  rw [hcontent, hr, hs]
  split at hspec
  · simp only [Script.outcome, hspec.1, hspec.2, Nat.zero_add, and_self]
  · simp only [Script.outcome, hspec]

end DirDigest.Zip
