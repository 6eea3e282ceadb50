import Reql.Frame.Header
import Reql.Json.Printer
import Reql.Json.Reader
import Reql.Query.Options

/-! Queries and their payloads. -/
namespace Reql

/-- What a query asks for. -/
inductive QueryType where
  | start
  | continue
  | stop
  | noreplyWait
deriving DecidableEq, Repr

namespace QueryType

def code : QueryType → UInt64
  | .start => 1
  | .continue => 2
  | .stop => 3
  | .noreplyWait => 4

def ofCode (code : UInt64) : Except ProtocolError QueryType :=
  if code = 1 then .ok .start
  else if code = 2 then .ok .continue
  else if code = 3 then .ok .stop
  else if code = 4 then .ok .noreplyWait
  else .error (.unknownQueryType code)

/-- The type of an encoded query: the number at the head of the array. -/
def peek (payload : Bytes) : Except ProtocolError QueryType :=
  match Json.read payload with
  | .error e => .error (.decode e.message)
  | .ok (.arr (head :: _)) =>
    match head.toUInt64? with
    | some code => ofCode code
    | none => .error (.decode "query payload is not a typed array")
  | .ok _ => .error (.decode "query payload is not a typed array")

end QueryType

/-- A query; only a start has a term and options. -/
structure Query where
  token : Token
  type : QueryType
  term : Option Term
  options : QueryOptions
deriving DecidableEq

namespace Query

def start (token : Token) (term : Term) (options : QueryOptions) : Query :=
  ⟨token, .start, some term, options⟩

/-- Any other request under a token. -/
def bare (token : Token) (type : QueryType) : Query :=
  ⟨token, type, none, .empty⟩

/-- The payload as a document: the type, for a start also the term and the options. -/
def document (q : Query) : Except ProtocolError Json :=
  match q.type, q.term with
  | .start, some t => .ok (.arr [.ofUInt64 q.type.code, t.build, q.options.build])
  | .start, none => .error (.encode "START query without a term")
  | _, _ => .ok (.arr [.ofUInt64 q.type.code])

def payload (q : Query) : Except ProtocolError Bytes :=
  match q.document with
  | .ok j => .ok j.encode
  | .error e => .error e

def encodeFrame (q : Query) : Except ProtocolError Bytes :=
  match q.payload with
  | .ok p => Reql.encodeFrame q.token p
  | .error e => .error e

end Query
end Reql
