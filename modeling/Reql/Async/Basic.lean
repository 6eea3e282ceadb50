import Reql.Connection.Action

/-! Calls on a connection as computations that give way to each other. A computation goes on by one
critical section at a time: it has the lock of one inbox or of the table of registrations, or it
reads or swaps one flag. Between two sections anything else may happen. A call that finds nothing
to read is over with the word that it has to wait, and is made again. Those who wait for the writer
get it in any order. It may keep its buffer for any time, but what it writes goes out at once. -/
namespace Reql.Async

/-- The place of a computation among those of its connection. -/
abbrev TaskId := Nat

/-- A request that takes a token of its own. -/
inductive Request where
  | query (term : Term) (options : QueryOptions) (exclusive : Bool)
  | noreplyWait
deriving DecidableEq

namespace Request

def withDefaultDb (db : Option String) : Request → Request
  | .query term options exclusive => .query term (options.withDefaultDb db) exclusive
  | .noreplyWait => .noreplyWait

def term : Request → Term
  | .query term _ _ => term
  | .noreplyWait => .anything

def isExclusive : Request → Bool
  | .query _ _ exclusive => exclusive
  | .noreplyWait => false

def isNoreply : Request → Bool
  | .query _ options _ => options.isNoreply
  | .noreplyWait => false

def message (token : Token) : Request → Query
  | .query term options _ => .start token term options
  | .noreplyWait => .bare token .noreplyWait

end Request

/-- A query with its payload. -/
structure Message where
  query : Query
  payload : Bytes
  encoded : query.payload = .ok payload
deriving DecidableEq

def Message.frame (m : Message) : Frame :=
  ⟨m.query.token, m.payload⟩

/-- What a message is written for: a query that is registered, one that wants no answer, more of
what a cursor reads, or what its caller has asked for by itself. -/
inductive Purpose where
  | query (token : Token) (id : CursorId)
  | noreply (token : Token) (request : Request)
  | fetch (id : CursorId)
  | other
deriving DecidableEq

/-- What follows when a connection has been closed: nothing, the end of the writing direction, or
that end by a computation of its own, but only if it is this one that has closed it. -/
inductive Closing where
  | leave
  | hangUp
  | release
deriving DecidableEq

/-- A critical section of a computation. -/
inductive Point where
  /- asking: is the connection open, the next token, the registration, is it open still -/
  | enter (r : Request)
  | take (r : Request)
  | register (token : Token) (r : Request)
  | recheck (token : Token) (id : CursorId) (r : Request)
  /- writing: the payload, the turn at the writer, the frame into its buffer, the buffer out -/
  | write (q : Query) (p : Purpose)
  | await (m : Message) (p : Purpose)
  | feed (m : Message) (p : Purpose)
  | flush (m : Message) (p : Purpose)
  | wrote (error : Option ClientError) (p : Purpose)
  /- asking for more: is the connection open, is the token registered -/
  | check (token : Token) (p : Purpose)
  | lookUp (token : Token) (p : Purpose)
  /- stopping: is the connection open -/
  | halt (token : Token)
  | spawnStop (token : Token)
  /- the inbox of a cursor, seen by its owner -/
  | read (id : CursorId)
  | prime (id : CursorId)
  | close (id : CursorId)
  | leave (id : CursorId)
  | letGo (id : CursorId)
  | deregister (token : Token)
  /- closing the connection: the flag, the table, the inboxes -/
  | shutDown (cause : ClientError) (closing : Closing)
  | drain (cause : ClientError)
  | fail (cause : ClientError) (ids : List CursorId)
  /- ending the writing direction: the flag, the turn at the writer, the stream -/
  | spawnHangUp
  | hangUp
  | awaitWriter
  | endWriting
  /- a frame: its cursor, and what it brings to it -/
  | route (f : Frame)
  | deliver (id : CursorId) (r : Response)
  | reject (id : CursorId) (error : ClientError)
  | reply (r : Connection.Reply)

/-- A connection, and the requests whose frames wait in the buffer of its writer. -/
structure Store where
  conn : Connection
  accepted : List Query

/-- What a section does: the connection after it, the sections that come next, a computation that
it starts, and a reply to its caller. -/
structure Turn where
  store : Store
  next : List Point
  spawned : List Point := []
  reply : Option Connection.Reply := none

def Turn.answer (t : Turn) (r : Connection.Reply) : Turn :=
  { t with reply := some r }

namespace Store

variable (s : Store)

/-- What the writer has accepted is written when nothing waits in its buffer any more. -/
def setWriter (w : FrameWriter) : Store :=
  if w.buffer.isEmpty then
    { conn := { s.conn with writer := w, written := s.conn.written ++ s.accepted }, accepted := [] }
  else { s with conn := { s.conn with writer := w } }

/-- A frame is in the buffer of the writer. -/
def accept (q : Query) (w : FrameWriter) : Store :=
  { conn := { s.conn with writer := w }, accepted := s.accepted ++ [q] }

def pass (next : List Point) : Turn :=
  { store := s, next }

def change (c : Connection) (next : List Point) : Turn :=
  { store := { s with conn := c }, next }

def onCursor (id : CursorId) (f : Cursor → Cursor) (next : Cursor → List Point) : Turn :=
  match s.conn.cursors[id]? with
  | none => s.pass []
  | some k => s.change { s.conn with cursors := s.conn.cursors.modify id f } (next k)

def onInbox (id : CursorId) (f : Inbox → Inbox) (next : Cursor → List Point) : Turn :=
  s.onCursor id (fun k => { k with inbox := f k.inbox }) next

end Store

namespace Point

/-- The owner is done with a cursor. -/
def finish (k : Cursor) : List Point :=
  deregister k.token :: if k.exclusive then [shutDown .connectionClosed .release] else []

def afterRead (id : CursorId) (k : Cursor) : List Point :=
  match k.inbox.step.1 with
  | .value v => [reply (.read (some (.ok (some v))))]
  | .ended => finish k ++ [reply (.read (some (.ok none)))]
  | .failed e => finish k ++ [reply (.read (some (.error e)))]
  | .wait => [reply (.read none)]
  | .fetch => [check k.token (.fetch id)]

def afterPrime (k : Cursor) : List Point :=
  match k.inbox.prime.1 with
  | .ready => [reply (.primed (some (.ok ())))]
  | .failed e => finish k ++ [reply (.primed (some (.error e)))]
  | .wait => [reply (.primed none)]

def afterClose (k : Cursor) : List Point :=
  if k.inbox.closed then
    (if k.exclusive then [shutDown .connectionClosed .release] else []) ++ [reply (.done none)]
  else
    deregister k.token ::
      if k.exclusive then
        [shutDown .connectionClosed .hangUp, shutDown .connectionClosed .release,
          reply (.done none)]
      else if k.inbox.serverDone then [reply (.done none)]
      else [halt k.token]

def afterLeave (id : CursorId) (k : Cursor) : List Point :=
  (if k.inbox.isRunning then
    deregister k.token :: if k.exclusive then [] else [spawnStop k.token]
  else []) ++ (if k.exclusive then [shutDown .connectionClosed .release] else []) ++ [letGo id]

def afterFault (e : FramingError) (p : Purpose) : List Point :=
  if (ClientError.ofFraming e).isFatal then
    [shutDown (.ofFraming e) .leave, wrote (some (.ofFraming e)) p]
  else [wrote (some (.ofFraming e)) p]

/-- Carries a section out. A computation can be started only where a `runtime` is at hand. The
inboxes of a table that is given up are failed in any order, and `pick` is the next of them. -/
def exec (runtime : Bool) (pick : Nat) (s : Store) : Point → Turn
  | enter r =>
    s.pass (if s.conn.closed then [reply (.done (some .connectionClosed))]
      else [take (r.withDefaultDb s.conn.database)])
  | take r =>
    let (token, tokens) := s.conn.tokens.take
    s.change { s.conn with tokens }
      (if r.isNoreply then [write (r.message token) (.noreply token r)] else [register token r])
  | register token r =>
    let (id, c) := s.conn.register token r.term r.isExclusive
    s.change c [recheck token id r]
  | recheck token id r =>
    s.pass (if s.conn.closed then [deregister token, reply (.done (some .connectionClosed))]
      else [write (r.message token) (.query token id)])
  | write q p =>
    s.pass (match h : q.payload with
      | .ok payload => [await ⟨q, payload, h⟩ p]
      | .error e => [wrote (some (.ofProtocol e)) p])
  | await m p => s.pass [feed m p]
  | feed m p =>
    match s.conn.writer.makeRoom with
    | (some e, w) => (s.setWriter w).pass (afterFault e p)
    | (none, w) =>
      match m.frame.encode w.limit w.buffer with
      | .error e => (s.setWriter w).pass (afterFault e p)
      | .ok buffer => ((s.setWriter w).accept m.query { w with buffer }).pass [flush m p]
  | flush _ p =>
    match s.conn.writer.flush with
    | (some e, w) => (s.setWriter w).pass (afterFault e p)
    | (none, w) => (s.setWriter w).pass [wrote none p]
  | wrote error p =>
    match p, error with
    | .query _ id, none =>
      (s.onCursor id (fun k => { k with held := true }) fun _ => []).answer (.done none)
    | .query token _, some e => s.pass [deregister token, reply (.done (some e))]
    | .noreply token r, none =>
      let (_, c) := s.conn.addCursor ⟨token, r.term, r.isExclusive, .finished, false, true⟩
      (s.change c []).answer (.done none)
    | .noreply _ _, some e => s.pass [reply (.done (some e))]
    | .fetch _, none => s.pass [reply (.read none)]
    | .fetch id, some e =>
      s.onInbox id .abandon fun k => finish k ++ [reply (.read (some (.error e)))]
    | .other, e => s.pass [reply (.done e)]
  | check token p =>
    s.pass (if s.conn.closed then [wrote (some .connectionClosed) p] else [lookUp token p])
  | lookUp token p =>
    s.pass (if s.conn.isRegistered token then [write (.bare token .continue) p]
      else [wrote (some (.unknownToken token)) p])
  | halt token =>
    s.pass (if s.conn.closed then [wrote none .other]
      else [write (.bare token .stop) .other])
  | spawnStop token =>
    { store := s, next := [], spawned := if runtime then [halt token] else [] }
  | read id => s.onInbox id (fun i => i.step.2) (afterRead id)
  | prime id => s.onInbox id (fun i => i.prime.2) afterPrime
  | close id => s.onInbox id (fun i => if i.closed then i else i.close) afterClose
  | leave id => s.onInbox id .drop (afterLeave id)
  | letGo id => s.onCursor id (fun k => { k with held := false }) fun _ => [reply (.done none)]
  | deregister token => s.change (s.conn.deregister token) []
  | shutDown cause closing =>
    if s.conn.closed then s.pass (if closing = .hangUp then [hangUp] else [])
    else
      s.change { s.conn with closed := true } (drain cause :: match closing with
        | .leave => []
        | .hangUp => [hangUp]
        | .release => [spawnHangUp])
  | drain cause =>
    s.change { s.conn with cursors := s.conn.cursors.map fun k => { k with registered := false } }
      [fail cause ((List.range s.conn.cursors.length).filter fun i =>
        s.conn.cursors[i]?.any (·.registered))]
  | fail cause ids =>
    match ids with
    | [] => s.pass []
    | id :: rest =>
      let next := (id :: rest)[pick]?.getD id
      s.change (s.conn.modifyInbox next (·.fail cause)) [fail cause ((id :: rest).erase next)]
  | spawnHangUp =>
    { store := s, next := [], spawned := if runtime then [hangUp] else [] }
  | hangUp =>
    if s.conn.writeClosed then s.pass []
    else s.change { s.conn with writeClosed := true } [awaitWriter]
  | awaitWriter => s.pass [endWriting]
  | endWriting => (s.setWriter s.conn.writer.close.2).pass []
  | route f =>
    match s.conn.cursors.findIdx? fun k => k.registered && k.token == f.token with
    | none => s.pass []
    | some id =>
      s.pass (match Response.decode f.token f.payload with
        | .ok r => if r.body.isBatch then [deliver id r] else [deregister f.token, deliver id r]
        | .error e => [deregister f.token, reject id (.ofProtocol e)])
  | deliver id r => s.onInbox id (·.deliver r) fun _ => []
  | reject id e => s.onInbox id (·.fail e) fun _ => []
  | reply r => (s.pass []).answer r

def awaitsWriter : Point → Bool
  | await .. | awaitWriter => true
  | _ => false

/-- Whether the section is carried out with the writer in hand. -/
def hasWriter : Point → Bool
  | feed .. | flush .. | endWriting => true
  | _ => false

/-- Whether a computation may be given up here: it waits for the writer, or for the stream. -/
def isSuspended (p : Point) : Bool :=
  p.awaitsWriter || p.hasWriter

end Point

/-- A computation: the cursor whose owner has called, whether a runtime is at hand where it goes on,
what is left to do, and what it has replied. -/
structure Task where
  cursor : Option CursorId
  runtime : Bool
  todo : List Point
  reply : Option Connection.Reply

/-- Whether a computation has come to its end, or has been given up. -/
def Task.isOver (τ : Task) : Bool :=
  τ.todo.isEmpty

/-- A connection with the computations of those who call, and which of them has the writer. What the
reading direction reports is handled by a computation of its own, which has the sections `handler`
left to do. -/
structure State where
  store : Store
  holder : Option TaskId
  tasks : List Task
  handler : List Point

/-- What can happen at one time: somebody calls or the stream reports something, a computation goes
on by one section, one is given up where it waits, or the stream that nobody holds is given up. -/
inductive Action where
  | begin (call : Connection.Action) (runtime : Bool)
  | step (task : TaskId) (pick : Nat)
  | handle (pick : Nat)
  | abandon (task : TaskId)
  | collect
deriving DecidableEq

namespace State

def start (s : Settings) : State :=
  { store := ⟨.start s, []⟩, holder := none, tasks := [], handler := [] }

def conn (s : State) : Connection :=
  s.store.conn

def setConn (s : State) (c : Connection) : State :=
  { s with store := { s.store with conn := c } }

def launch (s : State) (τ : Task) : State :=
  { s with tasks := s.tasks ++ [τ] }

/-- Whether the owner of a cursor waits for a call on it. -/
def isBusy (s : State) (id : CursorId) : Bool :=
  s.tasks.any fun τ => τ.cursor == some id && !τ.isOver

/-- Whether a call can be made: on a cursor only by its owner, who waits for one call at a time. -/
def admits (s : State) (call : Connection.Action) : Bool :=
  call.cursor?.all fun id => s.conn.cursors[id]?.any (·.held) && !s.isBusy id

def opening : Connection.Action → List Point
  | .query term options exclusive => [.enter (.query term options exclusive)]
  | .noreplyWait => [.enter .noreplyWait]
  | .next id => [.read id]
  | .prime id => [.prime id]
  | .closeCursor id => [.close id]
  | .dropCursor id => [.leave id]
  | .continueQuery token => [.check token .other]
  | .stop token => [.halt token]
  | .close => [.shutDown .connectionClosed .hangUp, .reply (.done none)]
  | .drop | .report _ | .breakWriting _ => []

/-- What is to be done about a report of the reading direction. -/
def incoming : FrameEvent → Point
  | .frame f => .route f
  | .failed e => .shutDown (.ofFraming e) .leave
  | .ended => .shutDown .connectionClosed .leave

def begin (s : State) (runtime : Bool) : Connection.Action → State
  | .drop => s.setConn { s.conn with held := false }
  | .report event => { s with handler := s.handler ++ [incoming event] }
  | .breakWriting reason => s.setConn (s.conn.breakWriting reason)
  | call => if s.admits call then s.launch ⟨call.cursor?, runtime, opening call, none⟩ else s

/-- The next section of a computation, with the computation and what is left to do after it. There
is none while another one has the writer that it waits for. -/
def next? (s : State) (j : TaskId) : Option (Task × Point × List Point) :=
  match s.tasks[j]? with
  | none => none
  | some τ =>
    match τ.todo with
    | [] => none
    | p :: rest => if p.awaitsWriter && s.holder.isSome then none else some (τ, p, rest)

/-- A computation has carried a section out. It has the writer as long as it needs it. -/
def advance (s : State) (j : TaskId) (τ : Task) (rest : List Point) (t : Turn) : State :=
  let todo := t.next ++ rest
  { s with
    store := t.store
    holder :=
      if todo.head?.any Point.hasWriter then some j
      else if s.holder = some j then none
      else s.holder
    tasks := s.tasks.set j { τ with todo, reply := t.reply.or τ.reply } ++
      if t.spawned.isEmpty then [] else [⟨none, true, t.spawned, none⟩] }

def step (s : State) (j : TaskId) (pick : Nat) : State :=
  match s.next? j with
  | none => s
  | some (τ, p, rest) => s.advance j τ rest (p.exec τ.runtime pick s.store)

/-- What has been reported is handled further. -/
def handle (s : State) (pick : Nat) : State :=
  match s.handler with
  | [] => s
  | p :: rest =>
    let t := p.exec true pick s.store
    { s with store := t.store, handler := t.next ++ rest }

/-- A computation that waits is given up. -/
def abandon (s : State) (j : TaskId) : State :=
  match s.tasks[j]? with
  | none => s
  | some τ =>
    if τ.todo.head?.any Point.isSuspended then
      { s with
        holder := if s.holder = some j then none else s.holder
        tasks := s.tasks.set j { τ with todo := [] } }
    else s

/-- The stream is given up when nobody holds the connection and no call is in progress. -/
def collect (s : State) : State :=
  if s.tasks.all Task.isOver then s.setConn s.conn.collect else s

def after (s : State) : Action → State
  | .begin call runtime => s.begin runtime call
  | .step j pick => s.step j pick
  | .handle pick => s.handle pick
  | .abandon j => s.abandon j
  | .collect => s.collect

def run (s : State) (as : List Action) : State :=
  as.foldl after s

end State
end Reql.Async
