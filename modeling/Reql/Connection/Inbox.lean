import Reql.Error
import Reql.Response.Basic

/-! What a query has received and not handed out yet. -/
namespace Reql

/-- The values received for a query and not handed out. `serverDone` says that nothing more will
arrive, `fetching` that a request for more is unanswered, and `closed` that the owner is done. -/
structure Inbox where
  buffer : List Json
  serverDone : Bool
  fetching : Bool
  closed : Bool
  isAtom : Bool
  error : Option ClientError
  profile : Option Json
deriving DecidableEq

namespace Inbox

def start : Inbox :=
  ⟨[], false, true, false, false, none, none⟩

def finished : Inbox :=
  ⟨[], true, false, false, false, none, none⟩

/-- The values that an answer brings. -/
def valuesOf : ResponseBody → List Json
  | .batch values | .sequence values => values
  | .atom value | .serverInfo value => [value]
  | .waitComplete | .error _ _ _ => []

def errorOf : ResponseBody → Option ClientError
  | .error kind text _ => some (.server kind text)
  | _ => none

def isAtomBody : ResponseBody → Bool
  | .atom _ | .serverInfo _ => true
  | _ => false

/-- An answer arrives; a closed inbox takes nothing. -/
def deliver (s : Inbox) (r : Response) : Inbox :=
  if s.closed then s
  else
    { s with
      buffer := s.buffer ++ valuesOf r.body
      serverDone := s.serverDone || !r.body.isBatch
      fetching := false
      isAtom := s.isAtom || isAtomBody r.body
      error := (errorOf r.body).or s.error
      profile := r.profile.or s.profile }

/-- The query fails, unless it is closed or its last answer has arrived. -/
def fail (s : Inbox) (e : ClientError) : Inbox :=
  if s.closed || s.serverDone then s
  else { s with fetching := false, serverDone := true, error := some e }

/-- Whether everything has been handed out, or the owner is done. -/
def isFinished (s : Inbox) : Bool :=
  s.closed || (s.serverDone && s.buffer.isEmpty && s.error.isNone)

/-- What a reader of the inbox has to do. -/
inductive Step where
  | value (value : Json)
  | ended
  | failed (error : ClientError)
  | fetch
  | wait
deriving DecidableEq

/-- Reads the inbox: first the values, then the error, then the end. If nothing of it is there,
more is asked for, unless it has been asked for already. -/
def step (s : Inbox) : Step × Inbox :=
  match s.buffer with
  | v :: rest => (.value v, { s with buffer := rest })
  | [] =>
    match s.error with
    | some e => (.failed e, { s with error := none, closed := true })
    | none =>
      if s.serverDone || s.closed then (.ended, { s with closed := true })
      else if s.fetching then (.wait, s)
      else (.fetch, { s with fetching := true })

/-- What waiting for the first answer comes to. -/
inductive Primed where
  | ready
  | failed (error : ClientError)
  | wait
deriving DecidableEq

/-- Waits for the first answer and takes nothing but an error that comes before any value. -/
def prime (s : Inbox) : Primed × Inbox :=
  if !s.buffer.isEmpty || s.closed then (.ready, s)
  else
    match s.error with
    | some e => (.failed e, { s with error := none, closed := true })
    | none => if s.serverDone || !s.fetching then (.ready, s) else (.wait, s)

/-- The owner gives up what is left. -/
def close (s : Inbox) : Inbox :=
  { s with closed := true, buffer := [], error := none }

/-- The request for more could not be written; its error is reported in place of any other. -/
def abandon (s : Inbox) : Inbox :=
  { s with closed := true, error := none }

def drop (s : Inbox) : Inbox :=
  { s with closed := true, buffer := [] }

/-- Whether a server would go on with the query. -/
def isRunning (s : Inbox) : Bool :=
  !s.closed && !s.serverDone

end Inbox
end Reql
