/-! # Streams

An environment owns three streams: one it reads and two it writes. A stream may be faulty, and what it then does is
part of its description.
-/

namespace Gapscript

/-- What is still to be read. With a failure, every attempt to read ends in it. -/
structure Source where
  bytes : ByteArray := .empty
  failure : Option String := none

namespace Source

/-- Read all that is left. The bytes are used up also when reading fails. -/
def readAll (s : Source) : Except String String × Source :=
  let rest := { s with bytes := .empty }
  match s.failure with
  | some message => (.error message, rest)
  | none =>
    match String.fromUTF8? s.bytes with
    | some text => (.ok text, rest)
    | none => (.error "stream did not contain valid UTF-8", rest)

end Source

/-- How a stream that is written to fails: it is closed, it takes no more bytes, or it cannot be flushed. -/
inductive SinkFault where
  | closed
  | full
  | flush
  deriving DecidableEq, Repr

/-- What has been written. -/
structure Sink where
  written : String := ""
  fault : Option SinkFault := none
  deriving DecidableEq, Repr

namespace Sink

/-- Write a text and flush. An empty text is not written, so that only the flush can fail. -/
def write (s : Sink) (text : String) : Except String Unit × Sink :=
  let kept := { s with written := s.written ++ text }
  match s.fault with
  | none => (.ok (), kept)
  | some .flush => (.error "flush refused", kept)
  | some .closed => if text.isEmpty then (.ok (), s) else (.error "sink closed", s)
  | some .full => if text.isEmpty then (.ok (), s) else (.error "failed to write whole buffer", s)

end Sink

structure Streams where
  input : Source := {}
  output : Sink := {}
  diagnostics : Sink := {}

end Gapscript
