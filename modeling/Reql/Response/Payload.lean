import Reql.Frame.Header
import Reql.Json.Printer
import Reql.Json.Reader
import Reql.Response.Basic

/-! The payloads of answers. -/
namespace Reql

/-- The parts of the payload of an answer: its type number, results, backtrace, profile and notes. -/
structure ResponsePayload where
  code : UInt64
  results : List Json
  backtrace : Option Json
  profile : Option Json
  notes : List UInt64
deriving DecidableEq

namespace ResponsePayload

open Json (Fault Piece Tree)

def word : Tree → Except Fault UInt64
  | .number n => do
    match (← Json.ofNumeral n).toUInt64? with
    | some w => .ok w
    | none => .error .wrongType
  | _ => .error .wrongType

def words : List Tree → Except Fault (List UInt64)
  | [] => .ok []
  | t :: rest => do return (← word t) :: (← words rest)

/-- The list of notes; a missing one is empty. -/
def notesOf : Option Tree → Except Fault (List UInt64)
  | none => .ok []
  | some (.list items) => words items
  | some _ => .error .wrongType

/-- The list of results; a missing one is empty. The payload and the list are two levels. -/
def resultsOf : Option Tree → Except Fault (List Json)
  | none => .ok []
  | some (.list items) => Json.ofTrees (Json.maxLevels - 2) items
  | some _ => .error .wrongType

/-- A document that may be missing; `null` stands for a missing one. The payload is one level. -/
def optionalOf : Option Tree → Except Fault (Option Json)
  | none => .ok none
  | some .null => .ok none
  | some t => do return some (← Json.ofTree (Json.maxLevels - 1) t)

/-- The payload with the given parts, of which only the type is required. -/
def ofParts (t r b p n : Option Tree) : Except Fault ResponsePayload := do
  let code ← match t with
    | some t => word t
    | none => .error .missingField
  return {
    code
    results := ← resultsOf r
    backtrace := ← optionalOf b
    profile := ← optionalOf p
    notes := ← notesOf n }

def nameFields : List (List Piece × Tree) → Except Fault (List (String × Tree))
  | [] => .ok []
  | (name, t) :: rest => do return (← Json.stringOfPieces name, t) :: (← nameFields rest)

def only? (name : String) (fields : List (String × Tree)) : Except Fault (Option Tree) :=
  match fields.filter fun f => f.1 == name with
  | [] => .ok none
  | [f] => .ok (some f.2)
  | _ => .error .repeatedField

/-- The payload that a tree spells: an object with the parts under one-letter names, or an array
of the parts in order, where the last ones may be missing. Other fields of the object are skipped
whatever they hold. -/
def ofTree : Tree → Except Fault ResponsePayload
  | .record fields => do
    let fields ← nameFields fields
    ofParts (← only? "t" fields) (← only? "r" fields) (← only? "b" fields) (← only? "p" fields)
      (← only? "n" fields)
  | .list items =>
    if items.length ≤ 5 then ofParts items[0]? items[1]? items[2]? items[3]? items[4]?
    else .error .wrongType
  | _ => .error .wrongType

def read (text : Bytes) : Except Json.ReadError ResponsePayload :=
  match Json.readTree text with
  | .error e => .error e
  | .ok t =>
    match ofTree t with
    | .ok p => .ok p
    | .error f => .error (.atRest f text 0)

/-- The payload as a document. Missing parts are left out, but for the results. -/
def document (p : ResponsePayload) : Json :=
  .obj ([("t", .ofUInt64 p.code), ("r", .arr p.results)]
    ++ (p.backtrace.map fun b => ("b", b)).toList
    ++ (p.profile.map fun q => ("p", q)).toList
    ++ (if p.notes.isEmpty then [] else [("n", .arr (p.notes.map .ofUInt64))]))

def encode (p : ResponsePayload) : Bytes :=
  p.document.encode

end ResponsePayload

namespace Response

/-- The only result of an answer that must have one. -/
def single (type : ResponseType) : List Json → Except ProtocolError Json
  | [j] => .ok j
  | js => .error (.decode (type.name ++ " response carries " ++ toString js.length
      ++ " values, expected 1"))

/-- The message of an error answer: its first result, as text if it is one. -/
def errorText : List Json → String
  | .str s :: _ => s
  | j :: _ => j.render
  | [] => "unknown server error"

/-- The body that results of a type make. -/
def bodyOf (type : ResponseType) (results : List Json) (backtrace : Option Json) :
    Except ProtocolError ResponseBody :=
  match type with
  | .successAtom => do return .atom (← single type results)
  | .successSequence => .ok (.sequence results)
  | .successPartial => .ok (.batch results)
  | .waitComplete => .ok .waitComplete
  | .serverInfo => do return .serverInfo (← single type results)
  | .clientError => .ok (.error .client (errorText results) backtrace)
  | .compileError => .ok (.error .compile (errorText results) backtrace)
  | .runtimeError => .ok (.error .runtime (errorText results) backtrace)

def ofPayload (token : Token) (p : ResponsePayload) : Except ProtocolError Response := do
  let type ← ResponseType.ofCode p.code
  return ⟨token, ← bodyOf type p.results p.backtrace, p.profile, p.notes⟩

def toPayload (r : Response) : ResponsePayload :=
  { code := r.body.type.code
    results := match r.body with
      | .atom v | .serverInfo v => [v]
      | .sequence vs | .batch vs => vs
      | .waitComplete => []
      | .error _ text _ => [.str text]
    backtrace := match r.body with
      | .error _ _ backtrace => backtrace
      | _ => none
    profile := r.profile
    notes := r.notes }

def decode (token : Token) (payload : Bytes) : Except ProtocolError Response :=
  match ResponsePayload.read payload with
  | .ok p => ofPayload token p
  | .error e => .error (.decode e.message)

def encode (r : Response) : Bytes :=
  r.toPayload.encode

def encodeFrame (r : Response) : Except ProtocolError Bytes :=
  Reql.encodeFrame r.token r.encode

end Response
end Reql
