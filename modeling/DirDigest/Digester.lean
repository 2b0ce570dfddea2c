import DirDigest.ArchiveDigest
import DirDigest.Config
import DirDigest.Event
import DirDigest.StatusSink
import DirDigest.Walk

/-! # Digesting paths and trees

A digester has a configuration and one read buffer that it uses for every file. A directory has the
digest zero; a file whose name makes it an archive and that opens as one has the digest of its
entries; every other file has the digest of its bytes.

* `Digester`, `Digester.new`: a digester.
* `openArchiveAt`, `Digester.digestPath`: the archive at a path, and the digest of a path.
* `Digester.digestDirectory`: the digests of all paths below a root that are not ignored, with a
  status sink told of each of them.
-/

set_option autoImplicit false

namespace DirDigest

/-- A configuration with a read buffer. -/
structure Digester where
  config : Config
  buffer : ReadBuffer

/-- A digester with a fresh buffer. -/
def Digester.new (config : Config) : Digester := ⟨config, { capacity := config.chunkSize }⟩

/-! ## Paths -/

/-- The outcome of digesting content, the events of it, and the buffer afterwards. -/
structure ContentRun where
  result : Except IoError Digest
  events : List Event
  buffer : ReadBuffer

/-- Opens the file at a path as an archive. -/
def openArchiveAt (t : FileTree) (p : Path) : Except Zip.Defect Zip.Archive :=
  match t.readFile p with
  | .ok content => Zip.Archive.ofBytes content
  | .error cause => .error (.unreadable cause.message)

/-- The digest of the bytes of a file. -/
def digestRaw (content : Bytes) (events : List Event) (buffer : ReadBuffer) : ContentRun :=
  let run := digestStream [.data content] buffer
  ⟨run.result, events, run.buffer⟩

/-- The digest of the content of the file at a path. -/
def digestFile (config : Config) (p : Path) (content : Bytes) (buffer : ReadBuffer) : ContentRun :=
  if config.isArchiveName p then
    match Zip.Archive.ofBytes content with
    | .ok archive =>
      let run := digestArchive archive buffer
      ⟨run.result, [.addedFile p], run.buffer⟩
    | .error defect =>
      digestRaw content [.addedFile p, .unreadableArchive p defect.message] buffer
  else digestRaw content [.addedFile p] buffer

/-- The event of a path that is a link. -/
def linkEvents (p : Path) : Node → List Event
  | .link _ => [.followedLink p]
  | _ => []

/-- The digest of what is at a path. -/
def digestContent (config : Config) (t : FileTree) (p : Path) (buffer : ReadBuffer) : ContentRun :=
  match t.lstat p with
  | .error cause => ⟨.error cause, [], buffer⟩
  | .ok node =>
    let events := linkEvents p node
    match t.stat p with
    | .error cause => ⟨.error cause, events, buffer⟩
    | .ok (.file content) =>
      let run := digestFile config p content buffer
      { run with events := events ++ run.events }
    | .ok _ => ⟨.ok directoryDigest, events ++ [.addedDirectory p], buffer⟩

/-- The outcome of digesting a path, the events of it, and the digester afterwards. -/
structure PathRun where
  result : Except DigestError Digest
  events : List Event
  digester : Digester

/-- The digest of what is at a path. -/
def Digester.digestPath (d : Digester) (t : FileTree) (p : Path) : PathRun :=
  let run := digestContent d.config t p d.buffer
  ⟨run.result.mapError (.read p), run.events, { d with buffer := run.buffer }⟩

/-! ## Trees -/

/-- The outcome of digesting a tree, the events of it, and the digester and the sink afterwards. -/
structure TreeRun (σ : Type) where
  result : Except DigestError DigestMap
  events : List Event
  digester : Digester
  sink : σ

/-- Digests keys one after another: each one that is not ignored is reported to the sink, which may
then end the run, and is only then digested. -/
def digestKeys {σ : Type} (sink : StatusSink σ) (t : FileTree) (root : Path)
    (ignored : List String) : List String → Digester → σ → DigestMap → List Event → TreeRun σ
  | [], d, s, map, events => ⟨.ok map, events, d, s⟩
  | key :: rest, d, s, map, events =>
    if ignored.contains key then digestKeys sink t root ignored rest d s map events
    else
      match sink.check (sink.report key s) with
      | (false, s) => ⟨.error .cancelled, events, d, s⟩
      | (true, s) =>
        let run := d.digestPath t (root.join key)
        match run.result with
        | .error e => ⟨.error e, events ++ run.events, run.digester, s⟩
        | .ok digest =>
          digestKeys sink t root ignored rest run.digester s (map.insert key digest)
            (events ++ run.events)

/-- The digests of all paths below a root that are not ignored. The tree is walked to its end
before the first path is reported. -/
def Digester.digestDirectory {σ : Type} (d : Digester) (t : FileTree) (root : Path)
    (ignored : List String) (sink : StatusSink σ) (s : σ) : TreeRun σ :=
  match collectKeys t d.config.followLinks root with
  | .error e => ⟨.error e, [], d, s⟩
  | .ok keys =>
    let run := digestKeys sink t root ignored keys d s .empty []
    match run.result with
    | .error _ => run
    | .ok map => { run with events := run.events ++ [.digestedDirectory root map.size] }

end DirDigest
