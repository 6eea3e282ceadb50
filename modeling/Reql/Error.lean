import Reql.Token

/-! What can go wrong, in payloads, in framing and on a connection. -/
namespace Reql

/-- Who is to blame for an error that a server reports. -/
inductive ErrorKind where
  | client
  | compile
  | runtime
deriving DecidableEq, Repr

def ErrorKind.name : ErrorKind → String
  | .client => "Client"
  | .compile => "Compile"
  | .runtime => "Runtime"

/-- A header or payload that cannot be read or written. -/
inductive ProtocolError where
  | malformedFrame (expected actual : Nat)
  | payloadTooLarge (size : Nat)
  | decode (reason : String)
  | encode (reason : String)
  | unknownResponseType (code : UInt64)
  | unknownQueryType (code : UInt64)
deriving DecidableEq, Repr

def ProtocolError.message : ProtocolError → String
  | .malformedFrame expected actual =>
    "malformed frame: expected " ++ toString expected ++ " header bytes, got " ++ toString actual
  | .payloadTooLarge size =>
    "payload of " ++ toString size ++ " bytes exceeds the frame length field"
  | .decode reason => "decode error: " ++ reason
  | .encode reason => "encode error: " ++ reason
  | .unknownResponseType code => "unknown response type: " ++ toString code.toNat
  | .unknownQueryType code => "unknown query type: " ++ toString code.toNat

/-- A stream of frames that cannot be read or written. -/
inductive FramingError where
  | io (reason : String)
  | protocol (error : ProtocolError)
  | frameTooLarge (size max : Nat)
  | truncated (buffered : Nat)
deriving DecidableEq, Repr

def FramingError.message : FramingError → String
  | .io reason => "io error: " ++ reason
  | .protocol e => "protocol error: " ++ e.message
  | .frameTooLarge size max =>
    "frame too large: " ++ toString size ++ " bytes (max " ++ toString max ++ ")"
  | .truncated buffered =>
    "connection closed with " ++ toString buffered ++ " bytes of a partial frame buffered"

/-- What a call on a connection, a cursor or a mock reports. -/
inductive ClientError where
  | transport (reason : String)
  | malformedFrame (reason : String)
  | decode (reason : String)
  | encode (reason : String)
  | unknownToken (token : Token)
  | connectionClosed
  | connectTimeout
  | unexpectedQuery (query : String)
  | server (kind : ErrorKind) (text : String)
  | emptyResult
  | config (reason : String)
deriving DecidableEq, Repr

namespace ClientError

def message : ClientError → String
  | .transport reason => "transport error: " ++ reason
  | .malformedFrame reason => "malformed frame: " ++ reason
  | .decode reason => "decode error: " ++ reason
  | .encode reason => "encode error: " ++ reason
  | .unknownToken token => "unknown token: " ++ token.text
  | .connectionClosed => "connection closed"
  | .connectTimeout => "connection timed out"
  | .unexpectedQuery query => "unexpected query: " ++ query
  | .server kind text => kind.name ++ " error: " ++ text
  | .emptyResult => "query returned no results"
  | .config reason => "configuration error: " ++ reason

def isTransient : ClientError → Bool
  | .transport _ | .connectionClosed | .connectTimeout => true
  | _ => false

def isServerError : ClientError → Bool
  | .server _ _ => true
  | _ => false

/-- Whether the error ends the whole connection and not one query alone. -/
def isFatal : ClientError → Bool
  | .transport _ | .connectionClosed => true
  | _ => false

def ofProtocol : ProtocolError → ClientError
  | .malformedFrame expected actual =>
    .malformedFrame (ProtocolError.malformedFrame expected actual).message
  | .payloadTooLarge size => .malformedFrame (ProtocolError.payloadTooLarge size).message
  | .encode reason => .encode reason
  | e => .decode e.message

/-- A framing error as a caller sees it; a stream cut inside a frame is a closed connection. -/
def ofFraming : FramingError → ClientError
  | .io reason => .transport reason
  | .protocol e => ofProtocol e
  | .truncated _ => .connectionClosed
  | .frameTooLarge size max => .malformedFrame (FramingError.frameTooLarge size max).message

end ClientError
end Reql
