import DirDigest.Checksum
import DirDigest.IoError

/-! # Reading a stream into a checksum

A stream is a script of events. A read takes what a buffer holds from the first event, so a stream
is drained in several reads; `feed` reads until a read brings nothing, retries interrupted reads
and hands every chunk to the checksum through one reused buffer.

* `ReadEvent`, `Script.read`: a stream and one read from it.
* `ReadBuffer`: the buffer, with the bytes that earlier reads left in it.
* `feed`, `Feed`: draining a stream, and all that can be told of it afterwards.
* `digestStream`: the digest of a stream.
-/

set_option autoImplicit false

namespace DirDigest

/-! ## Streams -/

/-- One event of a stream: bytes to deliver, an end that reads report once, or a failing read. -/
inductive ReadEvent
  | data (bytes : Bytes)
  | eof
  | fail (cause : IoError)
  deriving DecidableEq

/-- A stream: events in the order in which reads meet them. After the last one every read reports
the end. -/
abbrev Script := List ReadEvent

/-- One read into a buffer of `capacity` bytes, and what is left of the stream. No bytes mean the
end. A read never joins two events, and an empty buffer uses up nothing. -/
def Script.read (capacity : Nat) : Script → Except IoError Bytes × Script
  | [] => (.ok [], [])
  | .data bytes :: rest =>
    if capacity = 0 then (.ok [], .data bytes :: rest)
    else if bytes.isEmpty then Script.read capacity rest
    else (.ok (bytes.take capacity), .data (bytes.drop capacity) :: rest)
  | .eof :: rest => if capacity = 0 then (.ok [], .eof :: rest) else (.ok [], rest)
  | .fail cause :: rest =>
    if capacity = 0 then (.ok [], .fail cause :: rest) else (.error cause, rest)

/-- The weight of a stream bounds the number of reads that bring bytes or fail. -/
def Script.weight : Script → Nat
  | [] => 0
  | .data bytes :: rest => bytes.length + Script.weight rest
  | .eof :: rest => Script.weight rest
  | .fail _ :: rest => 1 + Script.weight rest

/-! ## The buffer -/

/-- A read buffer: its size, and the bytes that earlier reads left at its front. The rest of it has
not been written to. -/
structure ReadBuffer where
  capacity : Nat
  front : Bytes := []

/-- The buffer after a read that brought `chunk`: its front is overwritten. -/
def ReadBuffer.load (b : ReadBuffer) (chunk : Bytes) : ReadBuffer :=
  { b with front := chunk ++ b.front.drop chunk.length }

/-- The first `count` bytes of the buffer. -/
def ReadBuffer.contents (b : ReadBuffer) (count : Nat) : Bytes := b.front.take count

@[simp] theorem ReadBuffer.capacity_load (b : ReadBuffer) (chunk : Bytes) :
    (b.load chunk).capacity = b.capacity := rfl

@[simp] theorem ReadBuffer.contents_load (b : ReadBuffer) (chunk : Bytes) :
    (b.load chunk).contents chunk.length = chunk := by
  simp [ReadBuffer.load, ReadBuffer.contents]

/-! ## Draining a stream -/

/-- The outcome of draining a stream: the number of bytes or the failure, the checksum and the
buffer afterwards, the unread rest of the stream, and the number of reads made. The number of bytes
has no bound here: no stream that memory holds comes to the end of a counter of 64 bits. -/
structure Feed where
  result : Except IoError Nat
  checksum : Checksum
  buffer : ReadBuffer
  rest : Script
  reads : Nat

/-- At most `fuel` reads, after `count` bytes in `reads` reads. -/
def feedLoop : (fuel : Nat) → Script → Checksum → ReadBuffer → (count reads : Nat) → Feed
  | 0, script, checksum, buffer, count, reads => ⟨.ok count, checksum, buffer, script, reads⟩
  | fuel + 1, script, checksum, buffer, count, reads =>
    match script.read buffer.capacity with
    | (.error cause, rest) =>
      if cause.kind = .interrupted then feedLoop fuel rest checksum buffer count (reads + 1)
      else ⟨.error cause, checksum, buffer, rest, reads + 1⟩
    | (.ok [], rest) => ⟨.ok count, checksum, buffer, rest, reads + 1⟩
    | (.ok chunk, rest) =>
      let buffer := buffer.load chunk
      feedLoop fuel rest (checksum.update (buffer.contents chunk.length)) buffer
        (count + chunk.length) (reads + 1)

/-- Reads a stream to its end and absorbs every byte. An interrupted read is tried again; any other
failure ends the run, and the bytes before it stay absorbed. -/
def feed (script : Script) (checksum : Checksum) (buffer : ReadBuffer) : Feed :=
  feedLoop (script.weight + 1) script checksum buffer 0 0

/-- The outcome of digesting a whole stream. -/
structure StreamDigest where
  result : Except IoError Digest
  buffer : ReadBuffer
  reads : Nat

/-- The digest of a stream, read through a buffer; an empty buffer is left alone and a buffer of
one byte used in its place. -/
def digestStream (script : Script) (buffer : ReadBuffer) : StreamDigest :=
  if buffer.capacity = 0 then
    let run := feed script .empty ⟨1, []⟩
    ⟨run.result.map fun _ => run.checksum.value, buffer, run.reads⟩
  else
    let run := feed script .empty buffer
    ⟨run.result.map fun _ => run.checksum.value, run.buffer, run.reads⟩

/-- The size of a read buffer when none is asked for. -/
def defaultBufferSize : Nat := 65536

end DirDigest
