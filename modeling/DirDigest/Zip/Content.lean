import DirDigest.Deflate.Inflate
import DirDigest.Reading
import DirDigest.Zip.Archive

/-! # Content of archive entries

The content of an entry follows its local header. It is a stream: the bytes, and at their end a
failure if they are not the bytes that the directory promises.

* `EntryFault`: why the content of an entry cannot be read, with its kind and text.
* `Archive.locate`, `Archive.open`: the place and the stream of the content of an entry.
-/

set_option autoImplicit false

namespace DirDigest.Zip

/-- Why the content of an entry cannot be read. -/
inductive EntryFault
  | headerCut
  | headerSignature
  | encrypted
  | unknownMethod
  | wrongPassword
  | checksum
  | corruptStream
  | incompleteStream
  deriving DecidableEq, Repr

/-- A fault as a failure of the read that meets it. -/
def EntryFault.toIoError : EntryFault → IoError
  | .headerCut => .described .invalidData
      "invalid Zip archive: Unexpected end of zip::types::ZipLocalEntryBlock"
  | .headerSignature => .described .invalidData "invalid Zip archive: Invalid local file header"
  | .encrypted => .described .invalidData
      "unsupported Zip archive: Password required to decrypt file"
  | .unknownMethod => .described .invalidData
      "unsupported Zip archive: Compression method not supported"
  | .wrongPassword => .described .invalidData "provided password is incorrect"
  | .checksum => .described .invalidData "Invalid checksum"
  | .corruptStream => .described .invalidInput "corrupt deflate stream"
  | .incompleteStream => .described .unexpectedEof "incomplete deflate stream"

/-- The offset of the content of an entry, after its local header with its own name and extra
field. -/
def Archive.locate (a : Archive) (e : Entry) : Except EntryFault Nat :=
  match slice? a.data e.offset LocalHeader.length with
  | none => .error .headerCut
  | some header =>
    if hasSignature a.data localSignature e.offset then
      .ok (e.offset + LocalHeader.length + Bytes.toNumber ((header.drop 26).take 2) +
        Bytes.toNumber ((header.drop 28).take 2))
    else .error .headerSignature

/-- The bytes of an entry as they are stored: as many as the directory says, or up to the end of
the file. -/
def Archive.stored (a : Archive) (e : Entry) (start : Nat) : Bytes :=
  (a.data.extract start (min (start + e.compressedSize) a.data.size)).toList

/-- Content that is complete is delivered, and then compared with its checksum. -/
def checkedScript (crc : Nat) (content : Bytes) : Script :=
  if (digestBytes content).toNat = crc then [.data content]
  else [.data content, .fail EntryFault.checksum.toIoError]

/-- The stream of an entry's content. -/
def contentScript (e : Entry) (stored : Bytes) : Script :=
  if e.method = deflatedMethod then
    match Deflate.inflate stored with
    | ⟨output, .ok _⟩ => checkedScript e.crc output.toList
    | ⟨output, .error .corrupt⟩ =>
      [.data output.toList, .fail EntryFault.corruptStream.toIoError]
    | ⟨output, .error .incomplete⟩ =>
      [.data output.toList, .fail EntryFault.incompleteStream.toIoError]
  else checkedScript e.crc stored

/-- Opens the content of an entry. -/
def Archive.open (a : Archive) (e : Entry) : Except EntryFault Script :=
  match a.locate e with
  | .error f => .error f
  | .ok start =>
    if e.encrypted then .error .encrypted
    else if e.method ≠ storedMethod ∧ e.method ≠ deflatedMethod then .error .unknownMethod
    else if e.hasCipher then .error .wrongPassword
    else .ok (contentScript e (a.stored e start))

end DirDigest.Zip
