import Reql.Frame.Header

/-! Frames taken from and appended to byte buffers, under a limit on payloads. -/
namespace Reql

/-- A token and a payload. -/
structure Frame where
  token : Token
  payload : Bytes
deriving DecidableEq, Repr

def Frame.totalSize (f : Frame) : Nat :=
  FrameHeader.size + f.payload.length

/-- The largest payload that is accepted; it fits the length field. -/
structure FrameLimit where
  bytes : Nat
  fits : bytes < UInt32.size := by decide
deriving DecidableEq, Repr

namespace FrameLimit

/-- A limit of any size, cut to what the length field can hold. -/
def ofNat (n : Nat) : FrameLimit :=
  ⟨min n (UInt32.size - 1), Nat.lt_of_le_of_lt (Nat.min_le_right ..) (by decide)⟩

/-- The size of payloads accepted unless told otherwise: 64 MiB. -/
def defaultBytes : Nat := 64 * 1024 * 1024

def default : FrameLimit := ofNat defaultBytes

instance : Inhabited FrameLimit := ⟨default⟩

end FrameLimit

namespace Frame

/-- The first frame of a buffer and the bytes after it; none as long as it is incomplete. A header
that announces more than the limit is refused as soon as it is complete. -/
def decode (limit : FrameLimit) (buffer : Bytes) : Except FramingError (Option (Frame × Bytes)) :=
  if buffer.length < FrameHeader.size then .ok none
  else
    match FrameHeader.decode (buffer.take FrameHeader.size) with
    | .error e => .error (.protocol e)
    | .ok h =>
      let length := h.length.toNat
      let rest := buffer.drop FrameHeader.size
      if limit.bytes < length then .error (.frameTooLarge length limit.bytes)
      else if rest.length < length then .ok none
      else .ok (some (⟨h.token, rest.take length⟩, rest.drop length))

/-- As `decode`, where no further bytes can come: an incomplete frame is an error. -/
def decodeLast (limit : FrameLimit) (buffer : Bytes) :
    Except FramingError (Option (Frame × Bytes)) :=
  match decode limit buffer with
  | .ok none => if buffer.isEmpty then .ok none else .error (.truncated buffer.length)
  | r => r

/-- The buffer with a frame appended. -/
def encode (limit : FrameLimit) (f : Frame) (buffer : Bytes) : Except FramingError Bytes :=
  if limit.bytes < f.payload.length then .error (.frameTooLarge f.payload.length limit.bytes)
  else
    match FrameHeader.ofPayload f.token f.payload with
    | .ok h => .ok (h.encode buffer ++ f.payload)
    | .error e => .error (.protocol e)

end Frame
end Reql
