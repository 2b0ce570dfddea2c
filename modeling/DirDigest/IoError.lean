/-! # Input and output failures

A failure is an error number of the system, a bare kind, or a kind with a message of its own.

* `ErrorKind.text`: the text of a bare kind.
* `Errno.kind`, `Errno.text`, `Errno.number`: what the system says about an error number.
* `IoError.kind`, `IoError.message`: the two views of a failure.
-/

set_option autoImplicit false

namespace DirDigest

/-- The kinds of failure that callers tell apart. -/
inductive ErrorKind
  | notFound | permissionDenied | connectionReset | brokenPipe | alreadyExists | wouldBlock
  | invalidInput | invalidData | timedOut | writeZero | interrupted | unsupported | unexpectedEof
  | outOfMemory | other | inputOutput | notADirectory | isADirectory | invalidFilename
  | filesystemLoop | uncategorized
  deriving DecidableEq, Repr

/-- The text of a failure of which only the kind is known. -/
def ErrorKind.text : ErrorKind → String
  | .notFound => "entity not found"
  | .permissionDenied => "permission denied"
  | .connectionReset => "connection reset"
  | .brokenPipe => "broken pipe"
  | .alreadyExists => "entity already exists"
  | .wouldBlock => "operation would block"
  | .invalidInput => "invalid input parameter"
  | .invalidData => "invalid data"
  | .timedOut => "timed out"
  | .writeZero => "write zero"
  | .interrupted => "operation interrupted"
  | .unsupported => "unsupported"
  | .unexpectedEof => "unexpected end of file"
  | .outOfMemory => "out of memory"
  | .other => "other error"
  | .inputOutput => "input/output error"
  | .notADirectory => "not a directory"
  | .isADirectory => "is a directory"
  | .invalidFilename => "invalid filename"
  | .filesystemLoop => "filesystem loop or indirection limit (e.g. symlink loop)"
  | .uncategorized => "uncategorized error"

/-- The error numbers of the system that a file operation here can meet. -/
inductive Errno
  | noEntry | interrupted | inputOutput | tryAgain | accessDenied | notDirectory | isDirectory
  | nameTooLong | tooManyLinks
  | unknown (number : Nat)
  deriving DecidableEq, Repr

/-- The number of an error. -/
def Errno.number : Errno → Nat
  | .noEntry => 2
  | .interrupted => 4
  | .inputOutput => 5
  | .tryAgain => 11
  | .accessDenied => 13
  | .notDirectory => 20
  | .isDirectory => 21
  | .nameTooLong => 36
  | .tooManyLinks => 40
  | .unknown n => n

/-- The error with a number. -/
def Errno.ofNumber : Nat → Errno
  | 2 => .noEntry
  | 4 => .interrupted
  | 5 => .inputOutput
  | 11 => .tryAgain
  | 13 => .accessDenied
  | 20 => .notDirectory
  | 21 => .isDirectory
  | 36 => .nameTooLong
  | 40 => .tooManyLinks
  | n => .unknown n

/-- The kind of an error number. -/
def Errno.kind : Errno → ErrorKind
  | .noEntry => .notFound
  | .interrupted => .interrupted
  | .inputOutput => .inputOutput
  | .tryAgain => .wouldBlock
  | .accessDenied => .permissionDenied
  | .notDirectory => .notADirectory
  | .isDirectory => .isADirectory
  | .nameTooLong => .invalidFilename
  | .tooManyLinks => .filesystemLoop
  | .unknown _ => .uncategorized

/-- What the system says about an error number. -/
def Errno.text : Errno → String
  | .noEntry => "No such file or directory"
  | .interrupted => "Interrupted system call"
  | .inputOutput => "Input/output error"
  | .tryAgain => "Resource temporarily unavailable"
  | .accessDenied => "Permission denied"
  | .notDirectory => "Not a directory"
  | .isDirectory => "Is a directory"
  | .nameTooLong => "File name too long"
  | .tooManyLinks => "Too many levels of symbolic links"
  | .unknown n => "Unknown error " ++ toString n

/-- A failure of a file or stream operation. -/
inductive IoError
  | system (e : Errno)
  | bare (k : ErrorKind)
  | described (k : ErrorKind) (message : String)
  deriving DecidableEq, Repr

/-- The kind of a failure. -/
def IoError.kind : IoError → ErrorKind
  | .system e => e.kind
  | .bare k => k
  | .described k _ => k

/-- The text of a failure. -/
def IoError.message : IoError → String
  | .system e => e.text ++ " (os error " ++ toString e.number ++ ")"
  | .bare k => k.text
  | .described _ message => message

end DirDigest
