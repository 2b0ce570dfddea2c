import DirDigest.Proofs.IgnoredPaths
import DirDigest.Proofs.Ignoring

/-! # Paths that have no key

A walk ends at the first path that cannot be written as a key. It comes before anything is ignored,
so no ignored path keeps a run from it.

* `digestTree_eq_invalidPath`: only the walk fails for want of a key.
* `FirstWithoutKey`, `collectKeys_eq_invalidPath`: the first path of a walk that has no key.
* `inexpressible_stays`: the failure, and that it is the same whatever is ignored.
-/

set_option autoImplicit false

namespace DirDigest

/-! ## The walk -/

/-- Whether a path is the first one of a walk that has no key, and nothing fails before it. -/
def FirstWithoutKey (t : FileTree) (follow : Bool) (root p : Path) : Prop :=
  t.stat root = .ok .directory ∧
    ∃ (keys : List String) (after : List (Except DigestError String)),
      walkKeys t follow root = keys.map .ok ++ .error (.invalidPath p) :: after

section Walk
variable {t : FileTree} {root p : Path}

theorem checkRoot_ne_invalidPath : checkRoot t root ≠ .error (.invalidPath p) := by
  unfold checkRoot
  split
  · nofun
  · nofun
  · split
    · nofun
    · nofun

theorem collectKeys_eq_invalidPath {follow : Bool} :
    collectKeys t follow root = .error (.invalidPath p) ↔ FirstWithoutKey t follow root p := by
  rw [FirstWithoutKey, ← checkRoot_eq_ok, ← allOrFirst_eq_error, collectKeys]
  cases hroot : checkRoot t root with
  | error e =>
    have hne : e ≠ .invalidPath p := fun heq => checkRoot_ne_invalidPath (heq ▸ hroot)
    simp [hne]
  | ok u => simp

/-! ## Runs -/

variable {options : TreeOptions} {ignored : List String}

/-- Reading content does not fail for want of a key, so the walk does. -/
theorem digestTree_eq_invalidPath (ignored : List String) :
    (digestTree t root options ignored).1 = .error (.invalidPath p) ↔
      collectKeys t options.followLinks root = .error (.invalidPath p) := by
  have hsilent : (digestTree t root options ignored).1 =
      ((Digester.new options.config).digestDirectory t root ignored .silent ()).result :=
    digestDirectory_unstopped (fun _ _ => rfl) _ t root ignored 0
  rw [hsilent]
  cases hk : collectKeys t options.followLinks root with
  | error e =>
    have hwalk : collectKeys t (Digester.new options.config).config.followLinks root = .error e := hk
    rw [digestDirectory_error hwalk]
    simp
  | ok keys =>
    have hwalk : collectKeys t (Digester.new options.config).config.followLinks root = .ok keys := hk
    refine iff_of_false (fun hfail => ?_) nofun
    obtain ⟨before, key, after, -, -, hkey⟩ := (silent_eq_error hwalk).1 hfail
    obtain ⟨cause, hread⟩ := digestPath_error hkey
    cases hread

theorem digestTree_of_error {e : DigestError}
    (hk : collectKeys t options.followLinks root = .error e) (ignored : List String) :
    digestTree t root options ignored = (.error e, [.walkFinished root 0]) := by
  have hwalk : collectKeys t (Digester.new options.config).config.followLinks root = .error e := hk
  rw [digestTree, digestDirectory_error hwalk]
  rfl

theorem loadIgnored_error {failure : CommandFailure} (h : loadIgnored t options = .error failure) :
    ∃ file cause, failure = .ignoreFile file cause := by
  unfold loadIgnored at h
  split at h
  · cases h
  · split at h
    · cases h
    · exact ⟨_, _, (Except.error.inj h).symm⟩

theorem runDigest_eq_invalidPath {f : Format} :
    (runDigest t f root options).failure = some (.digest root (.invalidPath p)) ↔
      (∃ ignored, loadIgnored t options = .ok ignored) ∧
        FirstWithoutKey t options.followLinks root p := by
  rw [← collectKeys_eq_invalidPath]
  unfold runDigest
  cases hload : loadIgnored t options with
  | error failure =>
    obtain ⟨file, cause, rfl⟩ := loadIgnored_error hload
    simp
  | ok ignored =>
    rw [← digestTree_eq_invalidPath ignored]
    rcases hrun : digestTree t root options ignored with ⟨e | map, events⟩
    · simp only [hrun]
      simp
    · simp only [hrun]
      simp

/-- The walk comes first: what is ignored has no say in a failure for want of a key. -/
theorem runDigest_of_invalidPath {f : Format} {options' : TreeOptions}
    (hfirst : FirstWithoutKey t options.followLinks root p)
    (hload : loadIgnored t options = .ok ignored) {ignored' : List String}
    (hload' : loadIgnored t options' = .ok ignored')
    (hlinks : options'.followLinks = options.followLinks) :
    runDigest t f root options' = runDigest t f root options := by
  have hk := collectKeys_eq_invalidPath.2 hfirst
  have hk' : collectKeys t options'.followLinks root = .error (.invalidPath p) := by
    rwa [hlinks]
  unfold runDigest
  simp only [hload, hload', digestTree_of_error hk, digestTree_of_error hk']

end Walk

/-- What ignoring more does about a path without key, at which a command failed: nothing. -/
structure NoRemedy (t : FileTree) (root : Path) (options : TreeOptions) (p : Path) : Prop where
  /-- Other options, as long as they follow links alike and their ignore file can be read. -/
  others : ∀ (options' : TreeOptions) (ignored : List String), loadIgnored t options' = .ok ignored →
    options'.followLinks = options.followLinks →
    ∀ f, runDigest t f root options' = runDigest t f root options
  /-- One more ignored path, be it the key of a directory above or not. -/
  value : ∀ value f, runDigest t f root (options.ignoring value) = runDigest t f root options
  /-- The failure is the same. -/
  failure : ∀ value f, (runDigest t f root (options.ignoring value)).failure =
    some (.digest root (.invalidPath p))
  /-- The program leaves the same transcript, with the same advice. -/
  transcript : ∀ value env s,
    Invocation.run env t ⟨s, .digest root (options.ignoring value)⟩ =
      Invocation.run env t ⟨s, .digest root options⟩

theorem noRemedy {t : FileTree} {root p : Path} {options : TreeOptions} {ignored : List String}
    (hload : loadIgnored t options = .ok ignored)
    (hfirst : FirstWithoutKey t options.followLinks root p) : NoRemedy t root options p := by
  have hvalue : ∀ value f, runDigest t f root (options.ignoring value) =
      runDigest t f root options := by
    intro value f
    obtain ⟨more, hmore, -⟩ := mem_loadIgnored_ignoring hload value
    exact runDigest_of_invalidPath hfirst hload hmore rfl
  constructor
  case others =>
    intro options' ignored' hload' hlinks f
    exact runDigest_of_invalidPath hfirst hload hload' hlinks
  case value => exact hvalue
  case failure =>
    intro value f
    rw [hvalue, runDigest_eq_invalidPath]
    exact ⟨⟨ignored, hload⟩, hfirst⟩
  case transcript =>
    intro value env s
    have hrun : ∀ f, Command.run t f (.digest root (options.ignoring value)) =
        Command.run t f (.digest root options) := hvalue value
    unfold Invocation.run
    simp only [hrun]

/-- A command fails at a path for want of a key exactly if its ignore file can be read and the path
is the first one of its walk that has no key; whatever is ignored besides, it fails there again. -/
theorem inexpressible_stays (t : FileTree) (f : Format) (root p : Path) (options : TreeOptions) :
    ((runDigest t f root options).failure = some (.digest root (.invalidPath p)) ↔
      (∃ ignored, loadIgnored t options = .ok ignored) ∧
        FirstWithoutKey t options.followLinks root p) ∧
    ((runDigest t f root options).failure = some (.digest root (.invalidPath p)) →
      NoRemedy t root options p) := by
  refine ⟨runDigest_eq_invalidPath, fun hfail => ?_⟩
  obtain ⟨⟨ignored, hload⟩, hfirst⟩ := runDigest_eq_invalidPath.1 hfail
  exact noRemedy hload hfirst

/-- A directory with a file whose name is no text. -/
def namelessTree : FileTree :=
  .ofTable [([utf8 "d"], .directory), ([utf8 "d", [0xFF]], .file [1])]
    (by decide) (by decide) (by decide)

theorem inexpressible_stays_sample :
    (runDigest namelessTree .machine "." {}).failure =
        some (.digest "." (.invalidPath (("." : Path).extend [utf8 "d", [0xFF]]))) ∧
      (runDigest namelessTree .machine "." (({} : TreeOptions).ignoring "d")).failure =
        some (.digest "." (.invalidPath (("." : Path).extend [utf8 "d", [0xFF]]))) := by
  have hfail : (runDigest namelessTree .machine "." {}).failure =
      some (.digest "." (.invalidPath (("." : Path).extend [utf8 "d", [0xFF]]))) := by
    decide +kernel
  have hstays := (inexpressible_stays namelessTree .machine "."
    (("." : Path).extend [utf8 "d", [0xFF]]) {}).2 hfail
  exact ⟨hfail, hstays.failure "d" .machine⟩

/-- Ignoring the directory that holds the path does not help. -/
theorem ignored_parent_no_remedy :
    ¬∀ (t : FileTree) (f : Format) (root : Path) (options : TreeOptions) (names : List Name)
      (n : Name) (parent : String),
      (runDigest t f root options).failure =
        some (.digest root (.invalidPath (root.extend (names ++ [n])))) →
      names ≠ [] → (∀ m ∈ names ++ [n], IsName m) → keyOf? names = some parent →
      (runDigest t f root (options.ignoring parent)).failure ≠
        some (.digest root (.invalidPath (root.extend (names ++ [n])))) := by
  intro hall
  exact absurd (by decide +kernel) (hall namelessTree .machine "." {} [utf8 "d"] [0xFF] "d"
    (by decide +kernel) (by decide) (by decide) (by decide +kernel))

end DirDigest
