import Reql.Bytes
import Reql.Error

/-! Frames: a token, the length of a payload and the payload. -/
namespace Reql

/-- A token and the length of the payload that follows. -/
structure FrameHeader where
  token : Token
  length : UInt32
deriving DecidableEq, Repr

namespace FrameHeader

def size : Nat := 12

/-- The header of a payload, whose length must fit its field. -/
def ofPayload (token : Token) (payload : Bytes) : Except ProtocolError FrameHeader :=
  if payload.length < UInt32.size then .ok ⟨token, UInt32.ofNat payload.length⟩
  else .error (.payloadTooLarge payload.length)

/-- Appends the header to a buffer: token, then length, both with the lowest byte first. -/
def encode (h : FrameHeader) (buffer : Bytes) : Bytes :=
  buffer ++ Bytes.ofNatLE 8 h.token.toNat ++ Bytes.ofNatLE 4 h.length.toNat

/-- The twelve bytes of a header, place by place. -/
def toBytes (h : FrameHeader) : Vector UInt8 12 :=
  Vector.ofFn fun i =>
    if i.val < 8 then (h.token >>> (8 * UInt64.ofNat i.val)).toUInt8
    else (h.length >>> (8 * UInt32.ofNat (i.val - 8))).toUInt8

/-- The header that exactly twelve bytes spell. -/
def decode (bytes : Bytes) : Except ProtocolError FrameHeader :=
  if bytes.length = size then
    .ok ⟨UInt64.ofNat (Bytes.toNatLE (bytes.take 8)), UInt32.ofNat (Bytes.toNatLE (bytes.drop 8))⟩
  else .error (.malformedFrame size bytes.length)

end FrameHeader

def encodeFrame (token : Token) (payload : Bytes) : Except ProtocolError Bytes :=
  match FrameHeader.ofPayload token payload with
  | .ok h => .ok (h.encode [] ++ payload)
  | .error e => .error e

end Reql
