import Reql.Connection.Inbox
import Reql.Frame.Reader
import Reql.Frame.Writer
import Reql.Query.Basic
import Reql.Response.Payload
import Reql.Settings.Basic

/-! Connections, which carry any number of queries at a time over one byte stream. Here a call goes
on without a break until it has to wait; `Reql.Async` has calls that give way to each other. How
the stream is opened and what is traced is no part of this, nor is the waking of those who wait:
they may look again at any time. -/
namespace Reql

/-- A query and what has come of it. Answers under its token reach it while it is `registered`;
it is `held` until its owner drops it. The end of an `exclusive` cursor ends its connection. -/
structure Cursor where
  token : Token
  term : Term
  exclusive : Bool
  inbox : Inbox
  registered : Bool
  held : Bool
deriving DecidableEq

/-- The place of a cursor among those of its connection. -/
abbrev CursorId := Nat

/-- A connection: its cursors in the order of their queries, the two directions of its stream and
the requests written so far. It is `held` until its owner drops it. -/
structure Connection where
  database : Option String
  tokens : TokenSource
  cursors : List Cursor
  closed : Bool
  writeClosed : Bool
  writer : FrameWriter
  reader : FrameReader
  written : List Query
  held : Bool
deriving DecidableEq

namespace Cursor

def deregister (token : Token) (k : Cursor) : Cursor :=
  if k.token = token then { k with registered := false } else k

def lose (e : ClientError) (k : Cursor) : Cursor :=
  if k.registered then { k with registered := false, inbox := k.inbox.fail e } else k

/-- A frame arrives on the connection. It concerns the cursor only while that is registered under
the token of the frame; a batch leaves it registered. A payload that is no answer fails it. -/
def receive (f : Frame) (k : Cursor) : Cursor :=
  if k.registered ∧ k.token = f.token then
    match Response.decode f.token f.payload with
    | .ok r => { k with registered := r.body.isBatch, inbox := k.inbox.deliver r }
    | .error e => { k with registered := false, inbox := k.inbox.fail (.ofProtocol e) }
  else k

end Cursor

namespace Connection

def start (s : Settings) : Connection :=
  { database := s.database
    tokens := .start
    cursors := []
    closed := false
    writeClosed := false
    writer := .start s.frameLimit
    reader := .start s.frameLimit
    written := []
    held := true }

instance : Inhabited Connection := ⟨start default⟩

def openCursors (c : Connection) : Nat :=
  c.cursors.countP (·.registered)

def isRegistered (c : Connection) (token : Token) : Bool :=
  c.cursors.any fun k => k.registered && k.token == token

def modifyInbox (c : Connection) (id : CursorId) (f : Inbox → Inbox) : Connection :=
  { c with cursors := c.cursors.modify id fun k => { k with inbox := f k.inbox } }

/-- Answers under a token reach nobody any more. -/
def deregister (c : Connection) (token : Token) : Connection :=
  { c with cursors := c.cursors.map (·.deregister token) }

/-- Closes the connection for the given cause, which every registered cursor reports. Only the
first cause counts. -/
def shutDown (c : Connection) (cause : ClientError) : Connection :=
  if c.closed then c
  else { c with closed := true, cursors := c.cursors.map (·.lose cause) }

/-- Ends the writing direction, at most once. -/
def closeWriter (c : Connection) : Connection :=
  if c.writeClosed then c
  else { c with writeClosed := true, writer := c.writer.close.2 }

def close (c : Connection) : Connection :=
  (c.shutDown .connectionClosed).closeWriter

/-- Closes the connection on behalf of a cursor that had it to itself. The writing direction is
ended only if the connection was open. -/
def release (c : Connection) : Connection :=
  if c.closed then c else c.close

/-- Writes a request. An error of the stream closes the connection. -/
def write (c : Connection) (q : Query) : Option ClientError × Connection :=
  match q.payload with
  | .error e => (some (.ofProtocol e), c)
  | .ok payload =>
    match c.writer.send ⟨q.token, payload⟩ with
    | (none, writer) => (none, { c with writer, written := c.written ++ [q] })
    | (some e, writer) =>
      let error := ClientError.ofFraming e
      let c := { c with writer }
      (some error, if error.isFatal then c.shutDown error else c)

def addCursor (c : Connection) (k : Cursor) : CursorId × Connection :=
  (c.cursors.length, { c with cursors := c.cursors ++ [k] })

/-- Registers a query under a token. A cursor that still has the token, because tokens have wrapped
around, loses it. -/
def register (c : Connection) (token : Token) (term : Term) (exclusive : Bool) :
    CursorId × Connection :=
  (c.deregister token).addCursor ⟨token, term, exclusive, .start, true, false⟩

/-- The owner of a query gets its cursor. -/
def handOver (c : Connection) (id : CursorId) : Connection :=
  { c with cursors := c.cursors.modify id fun k => { k with held := true } }

/-- A cursor that neither waits for answers nor has an owner is gone. -/
def forget (c : Connection) (id : CursorId) : Connection :=
  match c.cursors[id]? with
  | none => c
  | some k =>
    if k.registered || k.held then c else { c with cursors := c.cursors.eraseIdx id }

/-- Registers a query under the next token and writes its request, in this order, so that no answer
can come too early. If the request cannot be written, the registration is taken back. -/
def ask (c : Connection) (term : Term) (exclusive : Bool) (q : Token → Query) :
    Except ClientError CursorId × Connection :=
  let (token, tokens) := c.tokens.take
  let (id, c) := { c with tokens }.register token term exclusive
  -- a close may have come between, and then nobody will answer
  if c.closed then (.error .connectionClosed, (c.deregister token).forget id)
  else
    match c.write (q token) with
    | (some e, c) => (.error e, (c.deregister token).forget id)
    | (none, c) => (.ok id, c.handOver id)

/-- Starts a query. The default database is filled in. If the server is asked not to reply, no
answer is waited for and the cursor is finished at once. -/
def query (c : Connection) (term : Term) (options : QueryOptions) (exclusive : Bool) :
    Except ClientError CursorId × Connection :=
  if c.closed then (.error .connectionClosed, c)
  else
    let options := options.withDefaultDb c.database
    if options.isNoreply then
      let (token, tokens) := c.tokens.take
      match { c with tokens }.write (.start token term options) with
      | (some e, c) => (.error e, c)
      | (none, c) =>
        let (id, c) := c.addCursor ⟨token, term, exclusive, .finished, false, true⟩
        (.ok id, c)
    else c.ask term exclusive fun token => .start token term options

/-- Asks the server to say when all queries without replies are done. -/
def noreplyWait (c : Connection) : Except ClientError CursorId × Connection :=
  if c.closed then (.error .connectionClosed, c)
  else c.ask .anything false fun token => .bare token .noreplyWait

def continueQuery (c : Connection) (token : Token) : Option ClientError × Connection :=
  if c.closed then (some .connectionClosed, c)
  else if c.isRegistered token then c.write (.bare token .continue)
  else (some (.unknownToken token), c)

/-- Asks the server to stop a query; a closed connection has nothing to stop. -/
def stop (c : Connection) (token : Token) : Option ClientError × Connection :=
  if c.closed then (none, c) else c.write (.bare token .stop)

def route (c : Connection) (f : Frame) : Connection :=
  { c with cursors := c.cursors.map (·.receive f) }

/-- What the reading direction reports: frames are routed, and its end or failure closes the
connection. -/
def handle (c : Connection) : FrameEvent → Connection
  | .frame f => c.route f
  | .failed e => c.shutDown (.ofFraming e)
  | .ended => c.shutDown .connectionClosed

/-- Takes what the reading direction reports. A closed connection reads no more. -/
def read (c : Connection) (next : FrameReader → List FrameEvent × FrameReader) : Connection :=
  if c.closed then c
  else
    let (events, reader) := next c.reader
    events.foldl handle { c with reader }

def receive (c : Connection) (chunk : Bytes) : Connection :=
  c.read fun r => r.receive chunk

/-- The other end has shut its writing direction down. -/
def receiveEnd (c : Connection) : Connection :=
  c.read fun r => r.finish

def receiveFailure (c : Connection) (reason : String) : Connection :=
  c.read fun r => r.fail reason

def breakWriting (c : Connection) (reason : String) : Connection :=
  { c with writer := { c.writer with link := { c.writer.link with fault := some reason } } }

/-- Whether somebody still holds the connection or one of its cursors. -/
def isHeld (c : Connection) : Bool :=
  c.held || c.cursors.any (·.held)

/-- A connection that nobody holds gives its stream up, and the other end reads its end. -/
def collect (c : Connection) : Connection :=
  if c.isHeld then c
  else { c with writer := { c.writer with link := { c.writer.link with ended := true } } }

/-- The owner drops the connection itself; its cursors keep it. -/
def drop (c : Connection) : Connection :=
  { c with held := false }.collect

end Connection
end Reql
