import DirDigest.Proofs.CommandRun
import DirDigest.Proofs.Difference

/-! # How commands end

* `digestDirectory_unstopped`: a sink that never stops a run does not count for its outcome.
* `IgnoreFails`, `TreeHas`, `TreeFails`: what can go wrong before anything is reported.
* `Command.Fails`, `Command.Differs`: the two reasons for which a command ends with code 1.
* `runDigest_outcome`, `runFile_outcome`, `runDiff_outcome`: the report and the failure of each
  command.
* `runProgram_outcome`: the exit code and the output of a command line.
-/

set_option autoImplicit false

namespace DirDigest

/-! ## Runs that are not stopped -/

section Unstopped
variable {σ τ : Type} {sink : StatusSink σ} {t : FileTree} {root : Path} {d : Digester}

theorem unstopped_passes (hgo : ∀ s key, sink.goesOn s key = true) {reads : String → Prop}
    {keys : List String} (h : ∀ key ∈ keys, reads key) (s : σ) : Passes sink reads s keys := by
  induction keys generalizing s with
  | nil => trivial
  | cons key rest ih =>
    obtain ⟨hkey, hrest⟩ := List.forall_mem_cons.1 h
    exact ⟨hgo s key, hkey, ih hrest _⟩

theorem digestDirectory_unstopped (hgo : ∀ s key, sink.goesOn s key = true) (d : Digester)
    (t : FileTree) (root : Path) (ignored : List String) (s : σ) :
    (d.digestDirectory t root ignored sink s).result =
      (d.digestDirectory t root ignored .silent ()).result := by
  cases hk : collectKeys t d.config.followLinks root with
  | error e => rw [digestDirectory_error hk, digestDirectory_error hk]
  | ok keys =>
    -- both runs get past the keys before the first one that has no digest
    rcases passes_or_stops .silent d t root () (liveKeys ignored keys) with
      hp | ⟨before, key, rest, hl, hp, hc | ⟨hsilent, e, hkey⟩⟩
    · obtain ⟨digest, hp⟩ := hp.exists_digest
      rw [(digestDirectory_complete hk hp).1,
        (digestDirectory_complete hk (unstopped_passes hgo hp.reads s)).1]
    · cases hc
    · rw [(digestDirectory_unread hk hl hp hsilent hkey).1,
        (digestDirectory_unread hk hl (unstopped_passes hgo hp.reads s) (hgo _ key) hkey).1]

end Unstopped

/-! ## What can go wrong -/

/-- Whether there is an ignore file that cannot be read as text. -/
def IgnoreFails (t : FileTree) (options : TreeOptions) : Prop :=
  ∃ file, options.ignoreFile = some file ∧ ∀ text, t.readFile file ≠ .ok (utf8 text)

/-- Whether a tree has a digest map. -/
def TreeHas (t : FileTree) (root : Path) (options : TreeOptions) (ignored : List String)
    (map : DigestMap) : Prop :=
  ((Digester.new options.config).digestDirectory t root ignored .silent ()).result = .ok map

/-- Whether a tree cannot be digested. -/
def TreeFails (t : FileTree) (root : Path) (options : TreeOptions) (ignored : List String) : Prop :=
  ∃ e, ((Digester.new options.config).digestDirectory t root ignored .silent ()).result = .error e

/-- Whether a command fails before it has anything to report. -/
def Command.Fails (t : FileTree) : Command → Prop
  | .digest root options => IgnoreFails t options ∨
      ∃ ignored, loadIgnored t options = .ok ignored ∧ TreeFails t root options ignored
  | .file path extensions =>
    ∃ e, ((Digester.new (extensionConfig extensions)).digestPath t path).result = .error e
  | .diff old new _ options => IgnoreFails t options ∨
      ∃ ignored, loadIgnored t options = .ok ignored ∧
        (TreeFails t old options ignored ∨
          (∃ before, TreeHas t old options ignored before) ∧ TreeFails t new options ignored)

/-- Whether a command is asked to tell trees apart by its exit code, and the maps of the trees are
not equal. -/
def Command.Differs (t : FileTree) : Command → Prop
  | .diff old new exitCode options => exitCode = true ∧
      ∃ ignored before after, loadIgnored t options = .ok ignored ∧
        TreeHas t old options ignored before ∧ TreeHas t new options ignored after ∧
        ∃ key, before.get? key ≠ after.get? key
  | _ => False

section Causes
variable {t : FileTree} {root : Path} {options : TreeOptions} {ignored : List String}

theorem readText_eq_ok {file : Path} {text : String} :
    t.readText file = .ok text ↔ t.readFile file = .ok (utf8 text) := by
  unfold FileTree.readText
  cases t.readFile file with
  | error cause => exact ⟨nofun, nofun⟩
  | ok content =>
    dsimp only
    constructor
    · intro h
      split at h
      · rename_i found htext
        obtain rfl := Except.ok.inj h
        rw [utf8_of_text? htext]
      · cases h
    · intro h
      rw [Except.ok.inj h, text?_utf8]

theorem loadIgnored_cases (t : FileTree) (options : TreeOptions) :
    (∃ failure, loadIgnored t options = .error failure ∧ IgnoreFails t options) ∨
    ∃ ignored, loadIgnored t options = .ok ignored ∧ ¬IgnoreFails t options := by
  cases hfile : options.ignoreFile with
  | none =>
    refine .inr ⟨ignoreSet options.ignored none, by simp only [loadIgnored, hfile], ?_⟩
    rintro ⟨file, h, -⟩
    rw [hfile] at h
    cases h
  | some file =>
    cases htext : t.readText file with
    | error cause =>
      refine .inl ⟨.ignoreFile file cause, by simp only [loadIgnored, hfile, htext], file, hfile,
        fun text hread => ?_⟩
      rw [readText_eq_ok.2 hread] at htext
      cases htext
    | ok text =>
      refine .inr ⟨ignoreSet options.ignored (some text), by simp only [loadIgnored, hfile, htext],
        ?_⟩
      rintro ⟨other, h, hnone⟩
      obtain rfl := Option.some.inj (hfile.symm.trans h)
      exact hnone text (readText_eq_ok.1 htext)

theorem digestTree_cases (t : FileTree) (root : Path) (options : TreeOptions)
    (ignored : List String) :
    (∃ e events, digestTree t root options ignored = (.error e, events) ∧
      TreeFails t root options ignored ∧ ∀ map, ¬TreeHas t root options ignored map) ∨
    ∃ map events, digestTree t root options ignored = (.ok map, events) ∧
      ¬TreeFails t root options ignored ∧
      ∀ other, TreeHas t root options ignored other ↔ map = other := by
  have hsame : (digestTree t root options ignored).1 =
      ((Digester.new options.config).digestDirectory t root ignored .silent ()).result :=
    digestDirectory_unstopped (fun _ _ => rfl) _ t root ignored 0
  unfold TreeFails TreeHas
  rw [← hsame]
  rcases digestTree t root options ignored with ⟨e | map, events⟩
  · exact .inl ⟨e, events, rfl, ⟨e, rfl⟩, nofun⟩
  · exact .inr ⟨map, events, rfl, nofun, fun other => by simp⟩

end Causes

/-! ## Commands -/

/-- Whether a run of a command ends as told: it fails for the two reasons only, and what it fails to
digest it does not report on. -/
structure EndsAs (t : FileTree) (c : Command) (run : CommandRun) : Prop where
  failure : run.failure.isSome = true ↔ c.Fails t ∨ c.Differs t
  report : c.Fails t → run.report = ""

section Commands
variable {t : FileTree} {f : Format}

theorem runDigest_outcome (t : FileTree) (f : Format) (root : Path) (options : TreeOptions) :
    EndsAs t (.digest root options) (runDigest t f root options) := by
  unfold runDigest
  rcases loadIgnored_cases t options with ⟨failure, hload, hfails⟩ | ⟨ignored, hload, hreads⟩
  · rw [hload]
    exact ⟨iff_of_true rfl (.inl (.inl hfails)), fun _ => rfl⟩
  · rcases digestTree_cases t root options ignored with
      ⟨e, events, hrun, hfails, -⟩ | ⟨map, events, hrun, hhas, -⟩
    · simp only [hload, hrun]
      exact ⟨iff_of_true rfl (.inl (.inr ⟨ignored, hload, hfails⟩)), fun _ => rfl⟩
    · have hnot : ¬Command.Fails t (.digest root options) := by
        rintro (h | ⟨other, hother, h⟩)
        · exact hreads h
        · obtain rfl := Except.ok.inj (hload.symm.trans hother)
          exact hhas h
      simp only [hload, hrun]
      exact ⟨iff_of_false nofun (not_or.2 ⟨hnot, id⟩), fun h => absurd h hnot⟩

theorem runFile_outcome (t : FileTree) (f : Format) (path : Path) (extensions : List String) :
    EndsAs t (.file path extensions) (runFile t f path extensions) := by
  have hfails : Command.Fails t (.file path extensions) ↔ ∃ e,
      ((Digester.new (extensionConfig extensions)).digestPath t path).result = .error e := Iff.rfl
  cases hrun : ((Digester.new (extensionConfig extensions)).digestPath t path).result with
  | error e =>
    simp only [runFile, hrun]
    exact ⟨iff_of_true rfl (.inl (hfails.2 ⟨e, hrun⟩)), fun _ => rfl⟩
  | ok digest =>
    have hnot : ¬Command.Fails t (.file path extensions) := by
      rw [hfails, hrun]
      rintro ⟨e, he⟩
      cases he
    refine ⟨?_, fun h => absurd h hnot⟩
    rw [(runFile_of_digest hrun).1]
    exact iff_of_false (by decide) (not_or.2 ⟨hnot, id⟩)

theorem runDiff_outcome (t : FileTree) (f : Format) (old new : Path) (exitCode : Bool)
    (options : TreeOptions) :
    EndsAs t (.diff old new exitCode options) (runDiff t f old new exitCode options) := by
  unfold runDiff
  rcases loadIgnored_cases t options with ⟨failure, hload, hfails⟩ | ⟨ignored, hload, hreads⟩
  · rw [hload]
    exact ⟨iff_of_true rfl (.inl (.inl hfails)), fun _ => rfl⟩
  -- the trees are digested one after the other, so the new one counts only if the old one has a map
  rcases digestTree_cases t old options ignored with
    ⟨e, events, hrun, hfails, -⟩ | ⟨before, events, hrun, hhas, hbefore⟩
  · simp only [hload, hrun]
    exact ⟨iff_of_true rfl (.inl (.inr ⟨ignored, hload, .inl hfails⟩)), fun _ => rfl⟩
  rcases digestTree_cases t new options ignored with
    ⟨e, later, hrun', hfails, -⟩ | ⟨after, later, hrun', hhas', hafter⟩
  · simp only [hload, hrun, hrun']
    exact ⟨iff_of_true rfl (.inl (.inr ⟨ignored, hload, .inr ⟨⟨before, (hbefore _).2 rfl⟩, hfails⟩⟩)),
      fun _ => rfl⟩
  have hnot : ¬Command.Fails t (.diff old new exitCode options) := by
    rintro (h | ⟨other, hother, h⟩)
    · exact hreads h
    · obtain rfl := Except.ok.inj (hload.symm.trans hother)
      exact h.elim hhas fun h => hhas' h.2
  have hdiffers : Command.Differs t (.diff old new exitCode options) ↔
      exitCode = true ∧ before ≠ after := by
    refine and_congr_right fun _ => ⟨?_, fun hne => ?_⟩
    · rintro ⟨other, first, second, hother, hfirst, hsecond, key, hkey⟩ rfl
      obtain rfl := Except.ok.inj (hload.symm.trans hother)
      obtain rfl := (hbefore first).1 hfirst
      obtain rfl := (hafter second).1 hsecond
      exact hkey rfl
    · refine ⟨ignored, before, after, hload, (hbefore _).2 rfl, (hafter _).2 rfl, ?_⟩
      exact not_forall.1 fun h => hne (ext_get? h)
  have hempty : (difference before after).isEmpty = true ↔ before = after := difference_isEmpty
  refine ⟨?_, fun h => absurd h hnot⟩
  simp only [hload, hrun, hrun', hdiffers, hnot, false_or, ne_eq, ← hempty]
  cases exitCode <;> cases (difference before after).isEmpty <;> simp

theorem command_outcome (t : FileTree) (f : Format) (c : Command) : EndsAs t c (c.run t f) := by
  cases c with
  | digest root options => exact runDigest_outcome t f root options
  | file path extensions => exact runFile_outcome t f path extensions
  | diff old new exitCode options => exact runDiff_outcome t f old new exitCode options

/-- Whether the exit code is asked for does not count for the report of a comparison. -/
theorem runDiff_report (t : FileTree) (f : Format) (old new : Path) (exitCode : Bool)
    (options : TreeOptions) :
    (runDiff t f old new exitCode options).report = (runDiff t f old new false options).report := by
  unfold runDiff
  split
  · rfl
  · split
    · rfl
    · split
      · rfl
      · rfl

/-- A command does not get both: trees that differ have been digested. -/
theorem not_fails_and_differs (t : FileTree) (c : Command) : ¬(c.Fails t ∧ c.Differs t) := by
  rintro ⟨hfails, hdiffers⟩
  cases c with
  | digest root options => exact hdiffers
  | file path extensions => exact hdiffers
  | diff old new exitCode options =>
    obtain ⟨-, ignored, before, after, hload, hbefore, hafter, -⟩ := hdiffers
    rcases hfails with hignore | ⟨other, hother, ⟨e, he⟩ | ⟨-, e, he⟩⟩
    · rcases loadIgnored_cases t options with ⟨failure, herror, -⟩ | ⟨-, -, hreads⟩
      · cases hload.symm.trans herror
      · exact hreads hignore
    · obtain rfl := Except.ok.inj (hload.symm.trans hother)
      cases he.symm.trans hbefore
    · obtain rfl := Except.ok.inj (hload.symm.trans hother)
      cases he.symm.trans hafter

theorem not_differs_self (root : Path) (exitCode : Bool) (options : TreeOptions) :
    ¬Command.Differs t (.diff root root exitCode options) := by
  rintro ⟨-, ignored, before, after, -, hbefore, hafter, key, hkey⟩
  obtain rfl := Except.ok.inj (hbefore.symm.trans hafter)
  exact hkey rfl

end Commands

/-! ## Command lines -/

/-- Whether the log filter of an environment, if there is one, can be read. -/
def ReadableLog (env : Environment) : Prop :=
  ∀ text, env.lookup logVariable = some text → ∃ filter, LogFilter.ofText? text = some filter

theorem readableLog_filter {env : Environment} (h : ReadableLog env) (s : CommonSwitches) :
    ∃ filter, logFilter env s = .ok filter := by
  cases hlevel : env.lookup logVariable with
  | none => exact ⟨.upTo s.level, by simp only [logFilter, hlevel]⟩
  | some text =>
    obtain ⟨filter, hfilter⟩ := h text hlevel
    exact ⟨filter, by simp only [logFilter, hlevel, hfilter]⟩

/-- A command line that asks for a command ends with code 0 or 1, and with 1 for two reasons only:
something could not be read, and then there is no output; or two trees differ and the exit code is
to tell, and then the output is that of the same comparison without exit code. -/
theorem runProgram_outcome {env : Environment} {arguments : List Bytes} {i : Invocation}
    (henv : ReadableLog env) (hrequest : Request.ofArguments arguments = .ok (.run i))
    (t : FileTree) :
    ((runProgram env arguments t).code = 0 ∨ (runProgram env arguments t).code = 1) ∧
    ((runProgram env arguments t).code = 1 ↔ i.command.Fails t ∨ i.command.Differs t) ∧
    ¬(i.command.Fails t ∧ i.command.Differs t) ∧
    (i.command.Fails t → (runProgram env arguments t).out = "") ∧
    (∀ old new exitCode options, i.command = .diff old new exitCode options →
      (runProgram env arguments t).out =
        (Invocation.run env t ⟨i.common, .diff old new false options⟩).out) ∧
    ∀ root exitCode options, i.command = .diff root root exitCode options →
      ¬i.command.Differs t := by
  obtain ⟨filter, hfilter⟩ := readableLog_filter henv i.common
  have hrun : runProgram env arguments t =
      (i.command.run t (format env i.common)).transcript filter := by
    simp only [runProgram, hrequest, run_transcript hfilter]
  obtain ⟨hfailure, hreport⟩ := command_outcome t (format env i.common) i.command
  have hcode : (runProgram env arguments t).code = 1 ↔
      (i.command.run t (format env i.common)).failure.isSome = true := by
    rw [hrun, CommandRun.transcript]
    cases (i.command.run t (format env i.common)).failure <;> simp
  refine ⟨?_, hcode.trans hfailure, not_fails_and_differs t i.command, fun hfails => ?_, ?_, ?_⟩
  · rw [hrun, CommandRun.transcript]
    exact (ite_eq_or_eq _ 1 0).symm
  · rw [hrun]
    exact hreport hfails
  · intro old new exitCode options hcommand
    have hplain := run_transcript (i := ⟨i.common, .diff old new false options⟩) (t := t) hfilter
    rw [hrun, hplain, hcommand]
    exact runDiff_report t _ old new exitCode options
  · intro root exitCode options hcommand
    rw [hcommand]
    exact not_differs_self root exitCode options

/-- Two builds of one file. -/
def twoBuilds : FileTree :=
  .ofTable [([utf8 "a"], .directory), ([utf8 "a", utf8 "f"], .file [1]),
      ([utf8 "b"], .directory), ([utf8 "b", utf8 "f"], .file [2])]
    (by decide) (by decide) (by decide)

/-- A comparison of two builds that asks for the exit code. -/
def comparison : Invocation := ⟨{ quiet := true }, .diff "a" "b" true {}⟩

/-- The words of this comparison. -/
def comparisonLine : List Bytes := ["-q", "diff", "a", "--exit-code", "b"].map utf8

theorem runProgram_outcome_sample :
    Request.ofArguments comparisonLine = .ok (.run comparison) ∧
    comparison.command.Differs twoBuilds ∧
    (runProgram [(logVariable, "info")] comparisonLine twoBuilds).code = 1 ∧
    (runProgram [(logVariable, "info")] comparisonLine twoBuilds).out = "~ f\n" := by
  have hrequest : Request.ofArguments comparisonLine = .ok (.run comparison) := by decide +kernel
  have hlog : ReadableLog [(logVariable, "info")] := by
    have hfilter : (LogFilter.ofText? "info").isSome = true := by decide +kernel
    intro text h
    obtain rfl : "info" = text := Option.some.inj h
    exact Option.isSome_iff_exists.1 hfilter
  obtain ⟨-, hcode, -, -, hout, -⟩ := runProgram_outcome hlog hrequest twoBuilds
  have hbefore : TreeHas twoBuilds "a" {} [] (.ofList [("f", digestBytes [1])]) := by
    unfold TreeHas
    decide +kernel
  have hafter : TreeHas twoBuilds "b" {} [] (.ofList [("f", digestBytes [2])]) := by
    unfold TreeHas
    decide +kernel
  have hdiffers : comparison.command.Differs twoBuilds :=
    ⟨rfl, [], _, _, rfl, hbefore, hafter, "f", by decide +kernel⟩
  refine ⟨hrequest, hdiffers, hcode.2 (.inr hdiffers), ?_⟩
  rw [hout "a" "b" true {} rfl]
  decide +kernel

end DirDigest
