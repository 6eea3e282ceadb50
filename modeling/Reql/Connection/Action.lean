import Reql.Connection.Call

/-! The actions of which every call on a connection and its cursors is made, and their runs. -/
namespace Reql.Connection

/-- What can happen to a connection at one time. Its owner and those of its cursors do something
that goes on until it has to wait; the stream reports something; or writing fails from now on. -/
inductive Action where
  | query (term : Term) (options : QueryOptions) (exclusive : Bool)
  | noreplyWait
  | next (id : CursorId)
  | prime (id : CursorId)
  | closeCursor (id : CursorId)
  | dropCursor (id : CursorId)
  | continueQuery (token : Token)
  | stop (token : Token)
  | close
  | drop
  | report (event : FrameEvent)
  | breakWriting (reason : String)
deriving DecidableEq

def Action.cursor? : Action → Option CursorId
  | .next id | .prime id | .closeCursor id | .dropCursor id => some id
  | _ => none

def Action.frame? : Action → Option Frame
  | .report (.frame f) => some f
  | _ => none

inductive Reply where
  | read (result : Option (Except ClientError (Option Json)))
  | primed (result : Option (Except ClientError Unit))
  | done (error : Option ClientError)

def errorOf {α : Type} : Except ClientError α → Option ClientError
  | .ok _ => none
  | .error e => some e

/-- Carries an action out. A query that succeeds adds a cursor behind the others. -/
def act (c : Connection) : Action → Reply × Connection
  | .query term options exclusive =>
    let (r, c) := c.query term options exclusive
    (.done (errorOf r), c)
  | .noreplyWait =>
    let (r, c) := c.noreplyWait
    (.done (errorOf r), c)
  | .next id =>
    let (r, c) := c.next? id
    (.read r, c)
  | .prime id =>
    let (r, c) := c.prime? id
    (.primed r, c)
  | .closeCursor id =>
    let (e, c) := c.closeCursor id
    (.done e, c)
  | .dropCursor id => (.done none, c.dropCursor id)
  | .continueQuery token =>
    let (e, c) := c.continueQuery token
    (.done e, c)
  | .stop token =>
    let (e, c) := c.stop token
    (.done e, c)
  | .close => (.done none, c.close)
  | .drop => (.done none, c.drop)
  | .report event => (.done none, c.handle event)
  | .breakWriting reason => (.done none, c.breakWriting reason)

def after (c : Connection) (a : Action) : Connection :=
  (c.act a).2

def run (c : Connection) (as : List Action) : Connection :=
  as.foldl after c

end Reql.Connection
