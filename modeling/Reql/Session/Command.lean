import Reql.Session.Settling

/-! The commands of a session and what they give. -/
namespace Reql.Session

/-- Whom a query is put to: the connection of the session, also as its only user, or a mock. -/
inductive Target where
  | connection
  | exclusive
  | mock (name : String)
deriving DecidableEq, Repr

/-- Where an expectation is registered: on a mock, or where another one is. -/
inductive Site where
  | mock (name : String)
  | besides (id : String)
deriving DecidableEq, Repr

/-- The answer that an expectation is given: one of its own, one from a new source, or one from a
feed. -/
inductive Reply where
  | answer (answer : Mock.Answer)
  | source (source : Mock.Source)
  | feed (name : String)
deriving DecidableEq

inductive Change where
  | reply (reply : Reply)
  | error (error : ClientError)
  | times (count : Nat)
  | after (seconds : Nat)
  | untilOpen (gate : String)
deriving DecidableEq

/-- What can be asked about the calls of an expected query. -/
inductive Question where
  | count
  | isNumber (count : Nat)
  | isExecuted
  | isNotExecuted
deriving DecidableEq, Repr

/-- A command. `id` names a cursor and the call on it, or an expectation. Questions about an
expectation can be put to another mock than its own. -/
inductive Command where
  | ask (id : String) (target : Target) (manner : Manner) (term : Term) (options : QueryOptions)
  | noreplyWait (id : String)
  | next (id : String)
  | all (id : String)
  | one (id : String)
  | close (id : String)
  | intoStream (id : String)
  | cursor (id : String)
  | cancel (id : String)
  | drop (id : String)
  | continueQuery (token : Token)
  | stopQuery (token : Token)
  | closeConnection
  | connection
  | dropConnection
  | reply (response : Response)
  | frame (frame : Frame)
  | bytes (bytes : Bytes)
  | shutDown
  | hangUp
  | failRead (reason : String)
  | failWrite (reason : String)
  | mock (name : String) (settings : Settings)
  | expect (id : String) (site : Site) (term : Term) (options : QueryOptions)
  | configure (id : String) (change : Change)
  | feed (name : String)
  | push (feed : String) (values : Mock.Chunk)
  | closeFeed (name : String)
  | gate (name : String) (isOpen : Bool)
  | setGate (name : String) (isOpen : Bool)
  | dropGate (name : String)
  | isConnected
  | expectedTerm (id : String)
  | question (id : String) (mock : Option String) (question : Question)
  | assertExpectations (mock : String)
  | executions (mock : String)
  | advance (seconds : Nat)

/-- The name of the call that a command may begin. -/
def Command.call? : Command → Option String
  | .ask id .. | .noreplyWait id | .next id | .all id | .one id => some id
  | _ => none

/-- What a step gives: its own result, the calls begun earlier that have ended, sorted by name, and
what a played server has received. -/
structure Report where
  result : Result
  others : List (String × Result)
  received : List FrameEvent

end Reql.Session
