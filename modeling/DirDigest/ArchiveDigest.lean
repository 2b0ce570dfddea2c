import DirDigest.Zip.Content

/-! # Digests of archives

The digest of an archive is that of the contents of its files, in byte order of their names, one
after another. Where an entry is stored, how it is compressed and what directories are listed does
not count.

* `fileEntries`: the files of an archive in order.
* `digestArchive`: its digest.
-/

set_option autoImplicit false

namespace DirDigest

open Zip (Archive Entry EntryFault)

/-- Whether the name of an entry does not come after that of another one. -/
def Zip.Entry.notAfter (a b : Entry) : Bool := decide (utf8 a.name ≤ utf8 b.name)

/-- The entries that are no directories, in byte order of their names. -/
def fileEntries (a : Archive) : List Entry :=
  (a.entries.filter fun e => !e.isDirectory).mergeSort Entry.notAfter

/-- The outcome of digesting an archive, and the read buffer afterwards. -/
structure ArchiveDigest where
  result : Except IoError Digest
  buffer : ReadBuffer

/-- Absorbs the contents of entries, one after another. -/
def absorbEntries (a : Archive) : List Entry → Checksum → ReadBuffer → ArchiveDigest
  | [], checksum, buffer => ⟨.ok checksum.value, buffer⟩
  | e :: rest, checksum, buffer =>
    match a.open e with
    | .error fault => ⟨.error fault.toIoError, buffer⟩
    | .ok script =>
      let run := feed script checksum buffer
      match run.result with
      | .error cause => ⟨.error cause, run.buffer⟩
      | .ok _ => absorbEntries a rest run.checksum run.buffer

/-- The first entry that has no place in the archive. -/
def locateAll (a : Archive) : List Entry → Except EntryFault Unit
  | [] => .ok ()
  | e :: rest =>
    match a.locate e with
    | .error fault => .error fault
    | .ok _ => locateAll a rest

/-- The digest of an archive. All entries are located first, in the order of the directory, and
then the files are read. -/
def digestArchive (a : Archive) (buffer : ReadBuffer) : ArchiveDigest :=
  match locateAll a a.entries with
  | .error fault => ⟨.error fault.toIoError, buffer⟩
  | .ok () => absorbEntries a (fileEntries a) .empty buffer

end DirDigest
