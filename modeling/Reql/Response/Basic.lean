import Reql.Error
import Reql.Json.Basic

/-! Answers of a server. -/
namespace Reql

/-- The type of an answer, as numbered by the wire protocol. -/
inductive ResponseType where
  | successAtom
  | successSequence
  | successPartial
  | waitComplete
  | serverInfo
  | clientError
  | compileError
  | runtimeError
deriving DecidableEq, Repr

namespace ResponseType

def code : ResponseType → UInt64
  | .successAtom => 1
  | .successSequence => 2
  | .successPartial => 3
  | .waitComplete => 4
  | .serverInfo => 5
  | .clientError => 16
  | .compileError => 17
  | .runtimeError => 18

def ofCode (code : UInt64) : Except ProtocolError ResponseType :=
  if code = 1 then .ok .successAtom
  else if code = 2 then .ok .successSequence
  else if code = 3 then .ok .successPartial
  else if code = 4 then .ok .waitComplete
  else if code = 5 then .ok .serverInfo
  else if code = 16 then .ok .clientError
  else if code = 17 then .ok .compileError
  else if code = 18 then .ok .runtimeError
  else .error (.unknownResponseType code)

def name : ResponseType → String
  | .successAtom => "SuccessAtom"
  | .successSequence => "SuccessSequence"
  | .successPartial => "SuccessPartial"
  | .waitComplete => "WaitComplete"
  | .serverInfo => "ServerInfo"
  | .clientError => "ClientError"
  | .compileError => "CompileError"
  | .runtimeError => "RuntimeError"

@[simp] theorem ofCode_code (t : ResponseType) : ofCode t.code = .ok t := by
  cases t <;> rfl

end ResponseType

def ErrorKind.responseType : ErrorKind → ResponseType
  | .client => .clientError
  | .compile => .compileError
  | .runtime => .runtimeError

/-- What an answer says. A batch is followed by more if it is asked for; after every other answer
the query is complete. -/
inductive ResponseBody where
  | atom (value : Json)
  | sequence (values : List Json)
  | batch (values : List Json)
  | waitComplete
  | serverInfo (value : Json)
  | error (kind : ErrorKind) (text : String) (backtrace : Option Json)
deriving DecidableEq

namespace ResponseBody

def type : ResponseBody → ResponseType
  | .atom _ => .successAtom
  | .sequence _ => .successSequence
  | .batch _ => .successPartial
  | .waitComplete => .waitComplete
  | .serverInfo _ => .serverInfo
  | .error kind _ _ => kind.responseType

/-- Whether more may follow. -/
def isBatch : ResponseBody → Bool
  | .batch _ => true
  | _ => false

end ResponseBody

structure Response where
  token : Token
  body : ResponseBody
  profile : Option Json
  notes : List UInt64
deriving DecidableEq

def Response.plain (token : Token) (body : ResponseBody) : Response :=
  ⟨token, body, none, []⟩

end Reql
