import Reql.Frame.Codec

/-! Frames written to a byte stream through a buffer. -/
namespace Reql

/-- The writing side of a byte stream: the bytes that have reached the other end, the fault that
every write meets, and whether the stream has been shut down. -/
structure Link where
  delivered : Bytes
  fault : Option String
  ended : Bool
deriving DecidableEq, Repr

namespace Link

def start : Link := ⟨[], none, false⟩

/-- Writes all bytes or none. -/
def write (l : Link) (bytes : Bytes) : Option FramingError × Link :=
  match l.fault with
  | some reason => (some (.io reason), l)
  | none =>
    if l.ended then (some (.io "broken pipe"), l)
    else (none, { l with delivered := l.delivered ++ bytes })

/-- Shuts the stream down, so that the other end reads its end. -/
def shutDown (l : Link) : Option FramingError × Link :=
  match l.fault with
  | some reason => (some (.io reason), l)
  | none => (none, { l with ended := true })

end Link

/-- A writer with the bytes that it has accepted and not yet written. Its operations give the
error they meet, if any, and the writer afterwards. -/
structure FrameWriter where
  limit : FrameLimit
  buffer : Bytes
  link : Link
deriving DecidableEq, Repr

namespace FrameWriter

def start (limit : FrameLimit) : FrameWriter :=
  ⟨limit, [], .start⟩

/-- With this many bytes waiting, they are written before another frame is accepted. -/
def highWater : Nat := 8 * 1024

def flush (w : FrameWriter) : Option FramingError × FrameWriter :=
  if w.buffer.isEmpty then (none, w)
  else
    match w.link.write w.buffer with
    | (none, link) => (none, { w with buffer := [], link })
    | (some e, link) => (some e, { w with link })

def makeRoom (w : FrameWriter) : Option FramingError × FrameWriter :=
  if w.buffer.length < highWater then (none, w) else w.flush

/-- Accepts a frame into the buffer. A frame over the limit leaves no byte there. -/
def feed (w : FrameWriter) (f : Frame) : Option FramingError × FrameWriter :=
  match w.makeRoom with
  | (some e, w) => (some e, w)
  | (none, w) =>
    match f.encode w.limit w.buffer with
    | .ok buffer => (none, { w with buffer })
    | .error e => (some e, w)

def send (w : FrameWriter) (f : Frame) : Option FramingError × FrameWriter :=
  match w.feed f with
  | (some e, w) => (some e, w)
  | (none, w) => w.flush

def close (w : FrameWriter) : Option FramingError × FrameWriter :=
  match w.flush with
  | (some e, w) => (some e, w)
  | (none, w) =>
    match w.link.shutDown with
    | (e, link) => (e, { w with link })

end FrameWriter
end Reql
