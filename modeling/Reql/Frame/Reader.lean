import Reql.Frame.Codec

/-! Frames read from a stream of bytes that arrives in chunks. -/
namespace Reql

/-- What a reader reports. -/
inductive FrameEvent where
  | frame (frame : Frame)
  | failed (error : FramingError)
  | ended
deriving DecidableEq, Repr

/-- A reader holds the bytes of the frame that is still incomplete. After a failure or the end of
the stream it reads no more. -/
structure FrameReader where
  limit : FrameLimit
  buffer : Bytes
  stopped : Bool
deriving DecidableEq, Repr

namespace FrameReader

def start (limit : FrameLimit) : FrameReader :=
  ⟨limit, [], false⟩

/-- The complete frames at the head of a buffer, the bytes after them, and the error that ends
them. Every frame takes at least one byte, so the length of the buffer bounds the steps. -/
def takeFrames (limit : FrameLimit) : Nat → Bytes → List Frame × Bytes × Option FramingError
  | 0, buffer => ([], buffer, none)
  | steps + 1, buffer =>
    match Frame.decode limit buffer with
    | .ok none => ([], buffer, none)
    | .error e => ([], buffer, some e)
    | .ok (some (f, rest)) =>
      let r := takeFrames limit steps rest
      (f :: r.1, r.2)

def failWith (r : FrameReader) (e : FramingError) : List FrameEvent × FrameReader :=
  ([.failed e, .ended], { r with stopped := true })

def receive (r : FrameReader) (chunk : Bytes) : List FrameEvent × FrameReader :=
  if r.stopped then ([], r)
  else
    let buffer := r.buffer ++ chunk
    let (frames, rest, error) := takeFrames r.limit buffer.length buffer
    let r := { r with buffer := rest }
    match error with
    | none => (frames.map .frame, r)
    | some e =>
      let (events, r) := r.failWith e
      (frames.map .frame ++ events, r)

/-- The end of the stream, which is clean only between frames. -/
def finish (r : FrameReader) : List FrameEvent × FrameReader :=
  if r.stopped then ([], r)
  else
    match Frame.decodeLast r.limit r.buffer with
    | .error e => r.failWith e
    | .ok _ => ([.ended], { r with stopped := true })

def fail (r : FrameReader) (reason : String) : List FrameEvent × FrameReader :=
  if r.stopped then ([], r) else r.failWith (.io reason)

end FrameReader
end Reql
