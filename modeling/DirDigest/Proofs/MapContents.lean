import DirDigest.Proofs.Checksum
import DirDigest.Proofs.Collecting
import DirDigest.Proofs.KeyDigest

/-! # What a digest map holds

* `nodeDigest_lt`: a digest is below `2 ^ 32`, whatever is digested.
* `keys_insertAll`, `restrict_insertAll`: a map into which digests were inserted, and a part of it.
* `HoldsDigests`, `digestDirectory_holdsDigests`: the map of a run that ends well holds the digest
  of each path that was reported, as a fresh digester gives it, and nothing else.
-/

set_option autoImplicit false

namespace DirDigest

/-! ## Digests -/

theorem absorbEntries_value {a : Zip.Archive} {files : List Zip.Entry} {checksum : Checksum}
    {buffer : ReadBuffer} {digest : Digest}
    (h : (absorbEntries a files checksum buffer).result = .ok digest) :
    ∃ c : Checksum, digest = c.value := by
  induction files generalizing checksum buffer with
  | nil => exact ⟨checksum, (Except.ok.inj h).symm⟩
  | cons e rest ih =>
    unfold absorbEntries at h
    split at h
    · cases h
    · dsimp only at h
      split at h
      · cases h
      · exact ih h

theorem digestArchive_lt {a : Zip.Archive} {buffer : ReadBuffer} {digest : Digest}
    (h : (digestArchive a buffer).result = .ok digest) : digest.toNat < 2 ^ 32 := by
  unfold digestArchive at h
  split at h
  · cases h
  · obtain ⟨c, rfl⟩ := absorbEntries_value h
    exact c.value_lt

theorem nodeDigest_lt {c : Config} {p : Path} {buffer : ReadBuffer} {node : Node} {digest : Digest}
    (h : nodeDigest c p buffer node = .ok digest) : digest.toNat < 2 ^ 32 := by
  cases node with
  | file content =>
    have hraw : (digestBytes content).toNat < 2 ^ 32 := Checksum.value_lt _
    rw [nodeDigest_file] at h
    cases hname : c.isArchiveName p with
    | false =>
      rw [digestFile_plain hname] at h
      exact Except.ok.inj h ▸ hraw
    | true =>
      cases hopen : Zip.Archive.ofBytes content with
      | ok a =>
        rw [digestFile_archive hname hopen] at h
        exact digestArchive_lt h
      | error defect =>
        rw [digestFile, if_pos hname, hopen, digestRaw_result] at h
        exact Except.ok.inj h ▸ hraw
  | directory =>
    cases h
    decide
  | link target =>
    cases h
    decide

/-! ## Keys -/

@[simp] theorem get?_empty (key : String) : DigestMap.empty.get? key = none := rfl

theorem keys_insertAll (digest : String → Digest) {keys : List String} (h : keys.Nodup) :
    (DigestMap.empty.insertAll digest keys).keys.Perm keys := by
  refine (List.perm_ext_iff_of_nodup (keys_nodup _) h).2 fun key => ?_
  rw [mem_keys, get?_insertAll]
  by_cases hkey : key ∈ keys
  · simp [hkey]
  · simp [hkey]

theorem restrict_insertAll (digest : String → Digest) (keys : List String)
    (keep : String → Bool) :
    (DigestMap.empty.insertAll digest keys).restrict keep =
      DigestMap.empty.insertAll digest (keys.filter keep) := by
  refine ext_get? fun key => ?_
  simp only [get?_restrict, get?_insertAll, List.mem_filter]
  cases hkeep : keep key with
  | false => simp
  | true => simp

/-- The number of paths that a sink was told. -/
def reportsIn (calls : List SinkCall) : Nat :=
  calls.countP fun call => match call with
    | .report _ => true
    | .check => false

theorem reportsIn_callsAbout (keys : List String) : reportsIn (callsAbout keys) = keys.length := by
  induction keys with
  | nil => rfl
  | cons key rest ih =>
    unfold reportsIn callsAbout at ih ⊢
    rw [List.flatMap_cons, List.countP_append, ih, List.length_cons]
    exact Nat.add_comm 1 rest.length

/-! ## Maps -/

/-- Whether a map holds the digests of the keys `live` below a root and nothing else. -/
structure HoldsDigests (config : Config) (t : FileTree) (root : Path) (live : List String)
    (map : DigestMap) : Prop where
  distinct : live.Nodup
  keys : map.keys.Perm live
  /-- A fresh digester gives the same digest. -/
  digest : ∀ key digest, map.get? key = some digest →
    ((Digester.new config).digestPath t (root.join key)).result = .ok digest
  directory : ∀ key digest, map.get? key = some digest →
    t.stat (root.join key) = .ok .directory → digest = 0
  narrow : ∀ key digest, map.get? key = some digest → digest.toNat < 2 ^ 32

section Runs
variable {σ : Type} {sink : StatusSink σ} {s : σ} {d : Digester} {t : FileTree} {root : Path}
  {ignored keys : List String} {map : DigestMap}

theorem agrees_new (h : 0 < d.buffer.capacity) : d.Agrees (.new d.config) :=
  ⟨rfl, rfl, ⟨fun hd => absurd hd (Nat.ne_of_gt h),
    fun hn => absurd hn (Nat.ne_of_gt (new_capacity d.config))⟩⟩

theorem holdsDigests_insertAll (hd : 0 < d.buffer.capacity) (hk : keys.Nodup)
    {digest : String → Digest} (hp : ∀ key ∈ keys, d.digestKey t root key = .ok (digest key)) :
    HoldsDigests d.config t root keys (DigestMap.empty.insertAll digest keys) := by
  have hread : ∀ key x, (DigestMap.empty.insertAll digest keys).get? key = some x →
      d.digestKey t root key = .ok x := by
    intro key x hx
    rw [get?_insertAll] at hx
    split at hx
    · rename_i hkey
      rw [hp key hkey, Option.some.inj hx]
    · cases hx
  constructor
  · exact hk
  · exact keys_insertAll digest hk
  · intro key x hx
    exact (digestKey_congr (agrees_new hd) key).symm.trans (hread key x hx)
  · intro key x hx hdirectory
    obtain ⟨node, hnode, hdigest⟩ := digestKey_eq_ok.1 (hread key x hx)
    rw [hdirectory] at hnode
    cases hnode
    exact (Except.ok.inj hdigest).symm
  · intro key x hx
    obtain ⟨node, -, hdigest⟩ := digestKey_eq_ok.1 (hread key x hx)
    exact nodeDigest_lt hdigest

theorem digestDirectory_holdsDigests (hd : 0 < d.buffer.capacity)
    (h : (d.digestDirectory t root ignored sink s).result = .ok map) :
    ∃ keys, collectKeys t d.config.followLinks root = .ok keys ∧
      HoldsDigests d.config t root (liveKeys ignored keys) map ∧
      reportsIn (d.digestDirectory t root ignored sink.recording (s, [])).sink.2 = map.size := by
  obtain ⟨keys, digest, hk, hp, rfl⟩ := digestDirectory_eq_ok.1 h
  have hlive : (liveKeys ignored keys).Nodup := (collectKeys_nodup hk).filter _
  have hholds := holdsDigests_insertAll hd hlive hp.reads
  refine ⟨keys, hk, hholds, ?_⟩
  have hrecord := (recording_passes sink _ s [] _).2 hp
  rw [(digestDirectory_complete hk hrecord).2, recording_calls, reportsIn_callsAbout,
    ← hholds.keys.length_eq, DigestMap.keys, List.length_map, DigestMap.size]

end Runs

end DirDigest
