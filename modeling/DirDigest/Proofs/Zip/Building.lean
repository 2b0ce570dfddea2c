import DirDigest.Proofs.Deflate
import DirDigest.Zip.Builder

/-! # What building steps add

* `BuildStep.added?`, `addedBy`: the name and content that a step, and a list of steps, add.
* `Compresses`: a compressor whose streams decompress to what they were made of.
* `step_cases`: what one step does to a draft.
* `members_spec`: the members of a list of steps are those that it adds, in order, with new names
  that fit their field.
* `filesBy`: the files that a list of steps adds under names of files.
-/

set_option autoImplicit false

namespace DirDigest.Zip

/-- The name and the content of what a step adds. -/
def BuildStep.added? : BuildStep → Option (String × Bytes)
  | .file name content => some (name, content)
  | .directory name => some (directoryName name, [])
  | .deflated | .permissions _ | .modified _ _ _ => none

/-- The names and contents that steps add, in order. -/
def addedBy (steps : List BuildStep) : List (String × Bytes) := steps.filterMap BuildStep.added?

/-- The name and the content of a file step, unless the name is that of a directory. -/
def BuildStep.file? : BuildStep → Option (String × Bytes)
  | .file name content => if isDirectoryName name then none else some (name, content)
  | _ => none

/-- The files that steps add, in order. -/
def filesBy (steps : List BuildStep) : List (String × Bytes) := steps.filterMap BuildStep.file?

/-- What a member is listed as. -/
def Member.listed (m : Member) : String × Bytes := (m.name, m.content)

/-- Whether every stream of a compressor decompresses to what it was made of. -/
def Compresses (compress : Compressor) : Prop :=
  ∀ content, ∃ rest, Deflate.inflate (compress content) = ⟨content.toArray, .ok rest⟩

theorem deflate_compresses : Compresses Deflate.deflate :=
  fun content => ⟨_, Deflate.inflate_deflate content⟩

/-- Whether a content is stored in a form that gives it back. -/
def Settings.Stores (s : Settings) (content stored : Bytes) : Prop :=
  if s.compress then ∃ rest, Deflate.inflate stored = ⟨content.toArray, .ok rest⟩
  else stored = content

/-- What holds of every member: its name and its date fit their fields, it is a file or a directory,
and it stores its content. -/
structure Member.Fits (m : Member) : Prop where
  name : (utf8 m.name).length < 0x10000
  date : m.settings.date < 0x10000
  kind : m.kindBits = fileBits ∨ m.kindBits = directoryBits
  stores : m.settings.Stores m.content m.stored

/-! ## Names of directories -/

theorem isDirectoryName_directoryName (name : String) :
    isDirectoryName (directoryName name) = true := by
  unfold directoryName
  split
  · assumption
  · simp [isDirectoryName, String.toList_append]

theorem file?_eq (s : BuildStep) : s.file? = s.added?.filter fun m => !isDirectoryName m.1 := by
  cases s with
  | file name content =>
    cases hn : isDirectoryName name with
    | true => simp [BuildStep.file?, BuildStep.added?, Option.filter, hn]
    | false => simp [BuildStep.file?, BuildStep.added?, Option.filter, hn]
  | directory name =>
    simp [BuildStep.file?, BuildStep.added?, Option.filter, isDirectoryName_directoryName]
  | deflated => rfl
  | permissions mode => rfl
  | modified year month day => rfl

theorem filesBy_eq (steps : List BuildStep) :
    filesBy steps = (addedBy steps).filter fun m => !isDirectoryName m.1 := by
  unfold filesBy addedBy
  induction steps with
  | nil => rfl
  | cons s rest ih =>
    rw [List.filterMap_cons, List.filterMap_cons, file?_eq]
    cases hs : s.added? with
    | none => exact ih
    | some m =>
      cases hm : isDirectoryName m.1 with
      | true => simp [Option.filter, hm, ih]
      | false => simp [Option.filter, hm, ih]

/-! ## Steps -/

theorem store_stores {compress : Compressor} (hc : Compresses compress) (s : Settings)
    (content : Bytes) : s.Stores content (s.store compress content) := by
  unfold Settings.Stores Settings.store
  by_cases hs : s.compress = true
  · rw [if_pos hs, if_pos hs]
    exact hc content
  · rw [if_neg hs, if_neg hs]

theorem addMember_eq_ok {members result : List Member} {m : Member}
    (h : addMember members m = .ok result) :
    m.name ∉ members.map Member.name ∧ (utf8 m.name).length < 0x10000 ∧
      result = members ++ [m] := by
  unfold addMember at h
  split at h
  · cases h
  · rename_i hnew
    split at h
    · cases h
    · rename_i hlong
      cases h
      refine ⟨fun hm => hnew ?_, by omega, rfl⟩
      obtain ⟨old, hold, hname⟩ := List.mem_map.1 hm
      exact List.any_eq_true.2 ⟨old, hold, beq_iff_eq.2 hname⟩

theorem packDate?_lt {year month day date : Nat} (h : packDate? year month day = some date) :
    date < 0x10000 := by
  unfold packDate? at h
  split at h
  · rename_i hdate
    cases h
    have hday : day ≤ 31 := by
      have hdays : daysOfMonth year month ≤ 31 := by
        unfold daysOfMonth
        split
        · split <;> omega
        · split <;> omega
      omega
    omega
  · cases h

section Run
variable {compress : Compressor}

/-- A step adds one member, whose name is new, or changes settings. -/
theorem step_cases {d d' : Draft} {s : BuildStep} (hc : Compresses compress)
    (h : d.step compress s = .ok d') (hd : d.settings.date < 0x10000) :
    (∃ m : Member, s.added? = some m.listed ∧ m.Fits ∧ m.name ∉ d.members.map Member.name ∧
      d' = { d with members := d.members ++ [m] }) ∨
    (s.added? = none ∧ d'.members = d.members ∧ d'.settings.date < 0x10000) := by
  cases s with
  | file name content =>
    simp only [Draft.step] at h
    cases hm : addMember d.members
        ⟨name, content, d.settings.store compress content, d.settings, fileBits⟩ with
    | error fault =>
      rw [hm] at h
      cases h
    | ok result =>
      rw [hm] at h
      cases h
      obtain ⟨hnew, hlong, rfl⟩ := addMember_eq_ok hm
      exact .inl ⟨_, rfl, ⟨hlong, hd, .inl rfl, store_stores hc d.settings content⟩, hnew, rfl⟩
  | directory name =>
    simp only [Draft.step] at h
    cases hm : addMember d.members
        ⟨directoryName name, [], [], { mode := 0o755 }, directoryBits⟩ with
    | error fault =>
      rw [hm] at h
      cases h
    | ok result =>
      rw [hm] at h
      cases h
      obtain ⟨hnew, hlong, rfl⟩ := addMember_eq_ok hm
      have hdate : (0x0021 : Nat) < 0x10000 := by decide
      exact .inl ⟨_, rfl, ⟨hlong, hdate, .inr rfl, rfl⟩, hnew, rfl⟩
  | deflated =>
    cases h
    exact .inr ⟨rfl, rfl, hd⟩
  | permissions mode =>
    cases h
    exact .inr ⟨rfl, rfl, hd⟩
  | modified year month day =>
    simp only [Draft.step] at h
    split at h
    · rename_i date hdate
      cases h
      exact .inr ⟨rfl, rfl, packDate?_lt hdate⟩
    · cases h

/-! ## Runs of steps -/

/-- What holds of a draft after any steps. -/
structure Draft.Sound (d : Draft) : Prop where
  date : d.settings.date < 0x10000
  fits : ∀ m ∈ d.members, m.Fits
  names : (d.members.map Member.name).Nodup

theorem sound_step {d d' : Draft} {s : BuildStep} (hc : Compresses compress)
    (h : d.step compress s = .ok d') (hd : d.Sound) :
    d'.Sound ∧ d'.members.map Member.listed = d.members.map Member.listed ++ s.added?.toList := by
  rcases step_cases hc h hd.date with ⟨m, hadd, hfits, hnew, rfl⟩ | ⟨hadd, hmembers, hdate⟩
  · refine ⟨⟨hd.date, ?_, ?_⟩, by simp [hadd]⟩
    · intro x hx
      rcases List.mem_append.1 hx with hx | hx
      · exact hd.fits x hx
      · exact List.mem_singleton.1 hx ▸ hfits
    · rw [List.map_append]
      refine List.nodup_append.2 ⟨hd.names, by simp, fun a ha b hb => ?_⟩
      rw [List.map_cons, List.map_nil, List.mem_singleton] at hb
      exact fun hab => hnew (hb ▸ hab ▸ ha)
  · refine ⟨⟨hdate, ?_, ?_⟩, by simp [hadd, hmembers]⟩
    · rw [hmembers]
      exact hd.fits
    · rw [hmembers]
      exact hd.names

theorem sound_run {steps : List BuildStep} {d d' : Draft} (hc : Compresses compress)
    (h : steps.foldlM (Draft.step compress) d = .ok d') (hd : d.Sound) :
    d'.Sound ∧ d'.members.map Member.listed = d.members.map Member.listed ++ addedBy steps := by
  induction steps generalizing d with
  | nil =>
    cases h
    exact ⟨hd, by simp [addedBy]⟩
  | cons s rest ih =>
    rw [List.foldlM_cons] at h
    cases hs : d.step compress s with
    | error fault =>
      rw [hs] at h
      cases h
    | ok middle =>
      rw [hs] at h
      obtain ⟨hsound, hstep⟩ := sound_step hc hs hd
      obtain ⟨hsound', hrun⟩ := ih h hsound
      refine ⟨hsound', ?_⟩
      rw [hrun, hstep, List.append_assoc, addedBy, addedBy, List.filterMap_cons]
      cases s.added? <;> rfl

theorem members_spec {steps : List BuildStep} {ms : List Member} (hc : Compresses compress)
    (h : members compress steps = .ok ms) :
    (∀ m ∈ ms, m.Fits) ∧ (ms.map Member.name).Nodup ∧ ms.map Member.listed = addedBy steps := by
  unfold members at h
  cases hrun : steps.foldlM (Draft.step compress) {} with
  | error fault =>
    rw [hrun] at h
    cases h
  | ok d =>
    rw [hrun] at h
    cases h
    have hstart : ({} : Draft).Sound := ⟨by decide, by simp, by simp⟩
    obtain ⟨hsound, hlisted⟩ := sound_run hc hrun hstart
    exact ⟨hsound.fits, hsound.names, by simpa using hlisted⟩

end Run

end DirDigest.Zip
