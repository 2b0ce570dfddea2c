/-! # Defects of an archive

* `Defect`: why a byte string is no readable archive, with its kind and its text.
-/

set_option autoImplicit false

namespace DirDigest.Zip

/-- The kinds of defect. -/
inductive DefectKind
  | invalidArchive
  | unsupportedArchive
  | io
  deriving DecidableEq, Repr

/-- Why a byte string is no readable archive. -/
inductive Defect
  | noEndRecord
  | endRecordCut
  | commentCut
  | directoryOffset
  | noDirectory
  | locatorOffset
  | locatorDisks
  | noEndRecord64
  | endRecord64
  | entryCount
  | severalDisks
  | headerCut
  | headerSignature
  | headerOffset
  | extraField
  | wideFields
  | unicodeField
  | timestamps
  | fileTimes
  | encryptionLength
  | encryption
  /-- The archive could not be read at all. -/
  | unreadable (reason : String)
  deriving DecidableEq, Repr

/-- The kind of a defect. -/
def Defect.kind : Defect → DefectKind
  | .severalDisks | .fileTimes | .encryptionLength => .unsupportedArchive
  | .timestamps | .unreadable _ => .io
  | _ => .invalidArchive

/-- What is wrong with the archive. -/
def Defect.reason : Defect → String
  | .noEndRecord => "Could not find EOCD"
  | .endRecordCut => "Unexpected end of EOCD"
  | .commentCut => "Invalid EOCD comment length"
  | .directoryOffset => "Invalid CDFH offset in EOCD"
  | .noDirectory => "No CDFH found"
  | .locatorOffset => "Invalid EOCD64 Locator CD offset"
  | .locatorDisks => "Multi-disk ZIP files are not supported"
  | .noEndRecord64 => "Could not find EOCD64"
  | .endRecord64 => "Invalid EOCD64"
  | .entryCount => "ZIP64 footer indicates more files on this disk than in the whole archive"
  | .severalDisks => "Support for multi-disk files is not implemented"
  | .headerCut => "Unexpected end of central directory header"
  | .headerSignature => "Invalid Central Directory header"
  | .headerOffset => "Archive header is too large"
  | .extraField => "Invalid extra field"
  | .wideFields => "ZIP64 extra-data field is the wrong length"
  | .unicodeField => "CRC32 checksum failed on Unicode extra field"
  | .timestamps => "flags and len don't match in extended timestamp field"
  | .fileTimes => "NTFS extra field has an unsupported length"
  | .encryptionLength => "AES extra data field has an unsupported length"
  | .encryption => "Invalid AES extra data field"
  | .unreadable reason => reason

/-- The text of a defect. -/
def Defect.message (d : Defect) : String :=
  match d.kind with
  | .invalidArchive => "invalid Zip archive: " ++ d.reason
  | .unsupportedArchive => "unsupported Zip archive: " ++ d.reason
  | .io => "i/o error: " ++ d.reason

end DirDigest.Zip
