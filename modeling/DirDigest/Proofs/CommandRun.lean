import DirDigest.Program
import DirDigest.Proofs.MapContents

/-! # What commands print

* `run_code_eq_zero`, `run_out`: a command that ends well leaves its report.
* `runDigest_eq_none`, `runFile_of_digest`: the reports of the digests of a tree and of one path.
* `SpellsKey`, `digestContent_respelled`: a path below a root may be written with a doubled slash.
* `map_perPath`: a map holds the digests of its paths, and the digest of a path by itself is printed
  as the digest of its tree prints it.
-/

set_option autoImplicit false

namespace DirDigest

/-! ## Transcripts -/

section Transcripts
variable {env : Environment} {t : FileTree} {i : Invocation}

theorem logFilter_switches {s : CommonSwitches} {filter : LogFilter}
    (h : logFilter env s = .ok filter) (s' : CommonSwitches) :
    ∃ filter', logFilter env s' = .ok filter' := by
  cases hlevel : env.lookup logVariable with
  | none => exact ⟨.upTo s'.level, by simp only [logFilter, hlevel]⟩
  | some text =>
    cases hread : LogFilter.ofText? text with
    | none => simp [logFilter, hlevel, hread] at h
    | some filter' => exact ⟨filter', by simp only [logFilter, hlevel, hread]⟩

theorem run_transcript {filter : LogFilter} (h : logFilter env i.common = .ok filter) :
    i.run env t = (i.command.run t (format env i.common)).transcript filter := by
  rw [Invocation.run, h]

theorem run_code_eq_zero : (i.run env t).code = 0 ↔
    (∃ filter, logFilter env i.common = .ok filter) ∧
      (i.command.run t (format env i.common)).failure = none := by
  cases h : logFilter env i.common with
  | error text => simp [Invocation.run, h]
  | ok filter =>
    rw [run_transcript h, CommandRun.transcript]
    cases (i.command.run t (format env i.common)).failure with
    | none => simp
    | some failure => simp

theorem run_out (h : (i.run env t).code = 0) :
    (i.run env t).out = (i.command.run t (format env i.common)).report := by
  obtain ⟨⟨filter, hfilter⟩, -⟩ := run_code_eq_zero.1 h
  rw [run_transcript hfilter, CommandRun.transcript]

end Transcripts

/-! ## Reports -/

section Reports
variable {t : FileTree} {f : Format} {root path : Path} {options : TreeOptions}

/-- The report of a tree, if the command does not fail. -/
theorem runDigest_eq_none (h : (runDigest t f root options).failure = none) :
    ∃ ignored map, loadIgnored t options = .ok ignored ∧
      ((Digester.new options.config).digestDirectory t root ignored .counting 0).result = .ok map ∧
      (runDigest t f root options).report = f.map root map := by
  unfold runDigest at h ⊢
  cases hload : loadIgnored t options with
  | error failure =>
    rw [hload] at h
    cases h
  | ok ignored =>
    rw [hload] at h
    cases hrun : ((Digester.new options.config).digestDirectory t root ignored
        .counting 0).result with
    | error e => simp [digestTree, hrun] at h
    | ok map => exact ⟨ignored, map, rfl, hrun, by simp [digestTree, hrun]⟩

theorem runFile_of_digest {extensions : List String} {digest : Digest}
    (h : ((Digester.new (extensionConfig extensions)).digestPath t path).result = .ok digest) :
    (runFile t f path extensions).failure = none ∧
      (runFile t f path extensions).report = f.file path digest := by
  simp [runFile, h]

/-- Whether links are followed does not count for the digest of one path. -/
theorem digestPath_extensions (options : TreeOptions) (t : FileTree) (p : Path) :
    ((Digester.new (extensionConfig options.archiveExtensions)).digestPath t p).result =
      ((Digester.new options.config).digestPath t p).result := by
  have hcontent : (digestContent (extensionConfig options.archiveExtensions) t p
      (Digester.new (extensionConfig options.archiveExtensions)).buffer).result =
      (digestContent options.config t p (Digester.new options.config).buffer).result :=
    (digestContent_congr rfl Iff.rfl t p).1
  exact congrArg (Except.mapError _) hcontent

end Reports

/-! ## Paths below a root -/

/-- Whether a path is that of a key below a root: joined to it, or written after it and a slash, as
long as this does not make it too long. -/
def SpellsKey (path root : Path) (key : String) : Prop :=
  path = root.join key ∨
    path.bytes = root.bytes ++ slash :: utf8 key ∧ path.bytes.length < pathLimit

section Spelling
variable {t : FileTree} {p q root path : Path}

theorem stat_respelled (hp : FileTree.Searchable p) (hs : segments p = segments q)
    (ha : p.isAbsolute = q.isAbsolute) {node : Node} (h : t.stat q = .ok node) :
    t.stat p = .ok node := by
  obtain ⟨l, hl, hnode⟩ := FileTree.nodeAt_iff.1 h
  obtain ⟨-, hfrom⟩ := FileTree.resolve_iff.1 hl
  have hstart : FileTree.start t.home p = FileTree.start t.home q := by
    rw [FileTree.start, FileTree.start, ha]
  rw [← hs, ← hstart] at hfrom
  exact FileTree.nodeAt_iff.2 ⟨l, FileTree.resolve_iff.2 ⟨hp, hfrom⟩, hnode⟩

theorem nodeDigest_respelled (hc : p.components = q.components) (c : Config) (buffer : ReadBuffer)
    (node : Node) : nodeDigest c p buffer node = nodeDigest c q buffer node := by
  have hname : c.isArchiveName p = c.isArchiveName q := by
    simp only [Config.isArchiveName, Path.extension?, Path.fileName?, hc]
  cases node with
  | file content => exact digestFile_result_congr hname Iff.rfl content
  | directory => rfl
  | link target => rfl

theorem searchable_of_stat {node : Node} (h : t.stat p = .ok node) : FileTree.Searchable p := by
  obtain ⟨l, hl, -⟩ := FileTree.nodeAt_iff.1 h
  exact (FileTree.resolve_iff.1 hl).1

theorem spellsKey_cases {key : String} (h : SpellsKey path root key)
    (hkey : (⟨utf8 key⟩ : Path).isAbsolute = false) (hroot : root.bytes ≠ []) :
    path = root.join key ∨ ∃ front, root.join key = ⟨front ++ slash :: utf8 key⟩ ∧
      path = ⟨front ++ slash :: slash :: utf8 key⟩ ∧ path.bytes.length < pathLimit := by
  obtain ⟨written⟩ := path
  obtain ⟨bytes⟩ := root
  rcases h with h | ⟨rfl, hlength⟩
  · exact .inl h
  · by_cases hlast : bytes.getLast? = some slash
    · obtain ⟨front, rfl⟩ := List.getLast?_eq_some_iff.1 hlast
      refine .inr ⟨front, ?_, ?_, hlength⟩
      · rw [Path.join, hkey, if_neg Bool.false_ne_true, if_pos (.inr hlast), List.append_assoc]
        rfl
      · rw [List.append_assoc]
        rfl
    · refine .inl ?_
      rw [Path.join, hkey, if_neg Bool.false_ne_true, if_neg (not_or.2 ⟨hroot, hlast⟩)]

/-- A key has the same digest under each of its paths. -/
theorem digestPath_spelled {key : String} (h : SpellsKey path root key)
    (hkey : (⟨utf8 key⟩ : Path).isAbsolute = false) (hsome : utf8 key ≠ [])
    (hroot : root.bytes ≠ []) {d : Digester} {digest : Digest}
    (hd : (d.digestPath t (root.join key)).result = .ok digest) :
    (d.digestPath t path).result = .ok digest := by
  rcases spellsKey_cases h hkey hroot with rfl | ⟨front, hjoin, rfl, hlength⟩
  · exact hd
  · rw [hjoin, Digester.digestPath, mapError_eq_ok, digestContent_eq_ok] at hd
    rw [Digester.digestPath, mapError_eq_ok, digestContent_eq_ok]
    obtain ⟨node, hnode, hdigest⟩ := hd
    have honce := searchable_of_stat hnode
    have htwice : FileTree.Searchable ⟨front ++ slash :: slash :: utf8 key⟩ := by
      refine ⟨fun hzero => honce.1 ?_, by simp, hlength⟩
      simpa using hzero
    refine ⟨node, ?_, ?_⟩
    · exact stat_respelled htwice (segments_doubled front hsome)
        (isAbsolute_doubled front _) hnode
    · rw [nodeDigest_respelled (components_doubled front _)]
      exact hdigest

end Spelling

/-! ## Two commands -/

/-- The map of a run that ends well holds the digests of the walked paths that are not ignored, as
fresh digesters give them. So the digest of a path by itself, with the same archive extensions, is
printed as the digest that the map has. -/
theorem map_perPath :
    (∀ {σ : Type} (sink : StatusSink σ) (s : σ) {d : Digester} (t : FileTree) (root : Path)
      (ignored : List String) {map : DigestMap}, 0 < d.buffer.capacity →
      (d.digestDirectory t root ignored sink s).result = .ok map →
      ∃ keys, collectKeys t d.config.followLinks root = .ok keys ∧
        HoldsDigests d.config t root (liveKeys ignored keys) map ∧
        reportsIn (d.digestDirectory t root ignored sink.recording (s, [])).sink.2 = map.size) ∧
    ∀ (env : Environment) (t : FileTree) (s : CommonSwitches) (root : Path) (options : TreeOptions),
      (Invocation.run env t ⟨s, .digest root options⟩).code = 0 →
      ∃ ignored keys map, loadIgnored t options = .ok ignored ∧
        collectKeys t options.followLinks root = .ok keys ∧
        map.keys.Perm (liveKeys ignored keys) ∧
        (Invocation.run env t ⟨s, .digest root options⟩).out = (format env s).map root map ∧
        ∀ (s' : CommonSwitches) (key : String) (digest : Digest) (path : Path),
          map.get? key = some digest → SpellsKey path root key →
          (Invocation.run env t ⟨s', .file path options.archiveExtensions⟩).code = 0 ∧
          (Invocation.run env t ⟨s', .file path options.archiveExtensions⟩).out =
            (format env s').file path digest := by
  refine ⟨fun sink s d t root ignored map hd h => digestDirectory_holdsDigests hd h, ?_⟩
  intro env t s root options hcode
  obtain ⟨⟨filter, hfilter⟩, hfailure⟩ := run_code_eq_zero.1 hcode
  obtain ⟨ignored, map, hload, hrun, hreport⟩ := runDigest_eq_none hfailure
  obtain ⟨keys, hk, hholds, -⟩ := digestDirectory_holdsDigests (new_capacity _) hrun
  refine ⟨ignored, keys, map, hload, hk, hholds.keys, (run_out hcode).trans hreport, ?_⟩
  intro s' key digest path hdigest hspells
  have hkey : key ∈ keys := by
    have hmem : key ∈ liveKeys ignored keys :=
      hholds.keys.mem_iff.1 (mem_keys.2 ⟨digest, hdigest⟩)
    exact (List.mem_filter.1 hmem).1
  obtain ⟨l, entries, hc⟩ := collected hk
  obtain ⟨names, hnames, hname⟩ := hc.key_names hkey
  obtain ⟨hne, hvalid⟩ := hc.named names hnames
  have hrelative := (key_path hvalid hne hname).1
  have hsome := key_ne_nil hvalid hne hname
  have hroot : root.bytes ≠ [] := (FileTree.resolve_iff.1 hc.resolves).1.2.1
  have hpath := digestPath_spelled hspells hrelative hsome hroot (hholds.digest key digest hdigest)
  obtain ⟨hnone, hprinted⟩ := runFile_of_digest ((digestPath_extensions options t path).trans hpath)
  have hfile : (Invocation.run env t ⟨s', .file path options.archiveExtensions⟩).code = 0 :=
    run_code_eq_zero.2 ⟨logFilter_switches hfilter s', hnone⟩
  exact ⟨hfile, (run_out hfile).trans hprinted⟩

/-- A build with a file in a directory. -/
def smallBuild : FileTree :=
  .ofTable [([utf8 "r"], .directory), ([utf8 "r", utf8 "d"], .directory),
      ([utf8 "r", utf8 "d", utf8 "f"], .file [1, 2, 3])]
    (by decide) (by decide) (by decide)

theorem map_perPath_sample :
    (∃ map keys, ((Digester.new {}).digestDirectory smallBuild "r/" ["d"] .silent ()).result =
        .ok map ∧ HoldsDigests {} smallBuild "r/" (liveKeys ["d"] keys) map) ∧
    (Invocation.run [] smallBuild ⟨{}, .digest "r/" { ignored := ["./d"] }⟩).code = 0 ∧
    ∃ digest, (Invocation.run [] smallBuild ⟨{ json := true }, .file "r//d/f" []⟩).out =
      Format.machine.file "r//d/f" digest := by
  have hrun : ((Digester.new {}).digestDirectory smallBuild "r/" ["d"]
      .silent ()).result.toOption.isSome = true := by decide +kernel
  have hcode :
      (Invocation.run [] smallBuild ⟨{}, .digest "r/" { ignored := ["./d"] }⟩).code = 0 := by
    decide +kernel
  obtain ⟨map, hmap⟩ := Option.isSome_iff_exists.1 hrun
  obtain ⟨keys, -, hholds, -⟩ :=
    map_perPath.1 .silent () smallBuild "r/" ["d"] (new_capacity {}) (ok_of_toOption hmap)
  obtain ⟨ignored, keys', map', hload, hk, hkeys, -, hfile⟩ :=
    map_perPath.2 [] smallBuild {} "r/" { ignored := ["./d"] } hcode
  refine ⟨⟨map, keys, ok_of_toOption hmap, hholds⟩, hcode, ?_⟩
  have hignored : loadIgnored smallBuild { ignored := ["./d"] } = .ok ["d"] := by decide +kernel
  have hwalked : collectKeys smallBuild false "r/" = .ok ["d", "d/f"] := by decide +kernel
  obtain rfl : ignored = ["d"] := Except.ok.inj (hload.symm.trans hignored)
  obtain rfl : keys' = ["d", "d/f"] := Except.ok.inj (hk.symm.trans hwalked)
  have hlive : "d/f" ∈ map'.keys := hkeys.mem_iff.2 (by decide)
  obtain ⟨digest, hdigest⟩ := mem_keys.1 hlive
  have hspells : SpellsKey "r//d/f" "r/" "d/f" := .inr ⟨by decide +kernel, by decide +kernel⟩
  exact ⟨digest, (hfile { json := true } "d/f" digest "r//d/f" hdigest hspells).2⟩

end DirDigest
