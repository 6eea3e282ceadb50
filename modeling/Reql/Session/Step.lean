import Reql.Session.Arrival
import Reql.Session.Calls
import Reql.Session.Mocking

/-! The steps of a session. -/
namespace Reql.Session

/-- How far a command has got: its result, unless the call that it began is still in progress, and
the other calls that have ended meanwhile. -/
structure Progress where
  result : Option Result
  ended : List (String × Result)
  session : Session

namespace Progress

/-- A command with a result at once. -/
def done : Result × Session → Progress
  | (r, s) => ⟨some r, [], s⟩

def shown (s : Session) (r : Result) : Progress :=
  ⟨some r, [], s⟩

def ofCall : Option Result × Session → Progress
  | (r, s) => ⟨r, [], s⟩

/-- A command with no result of its own, during which calls may end. -/
def ofEnded : List (String × Result) × Session → Progress
  | (ended, s) => ⟨some .ok, ended, s⟩

end Progress

def resultOfError : Option ClientError → Result
  | none => .ok
  | some e => .failed e

/-- Does something with the connection that gives an error, if any. -/
def tryConnection (s : Session) (f : Connection → Option ClientError × Connection) : Progress :=
  .done (s.withConnection fun c =>
    let (e, c) := f c
    (resultOfError e, c))

def hasServer (s : Session) : Bool :=
  match s.lines[ownLine]? with
  | some l => l.isPresent
  | none => false

/-- The played server sends bytes, if it is there. -/
def send (s : Session) (bytes : Bytes) : Progress :=
  if s.hasServer then .ofEnded (s.arrive bytes) else .shown s .ok

/-- The played server does something to the line, if it is there. -/
def atServer (s : Session) (f : Line → Line) : Progress :=
  .done (.ok, if s.hasServer then s.modifyLine ownLine f else s)

def bytesOf : Except ProtocolError Bytes → Bytes
  | .ok bytes => bytes
  | .error _ => []

def ask (s : Session) (id : String) (target : Target) (manner : Manner) (term : Term)
    (options : QueryOptions) : Option Result × Session :=
  match target with
  | .connection => s.askConnection id manner.call? (·.query term options false)
  | .exclusive => s.askConnection id manner.call? (·.query term options true)
  | .mock mock => s.askMock id mock manner term options

/-- Does something with a name that is in use. -/
def withName (s : Session) (id : String) (f : Session → String → Session) : Progress :=
  .done (if s.slots.contains id then (.ok, f s id) else (.noCursor, s))

/-- Carries a command out, up to the point where the call that it begins has to wait. -/
def perform (s : Session) : Command → Progress
  | .ask id target manner term options => .ofCall (s.ask id target manner term options)
  | .noreplyWait id => .ofCall (s.askConnection id (some .barrier) (·.noreplyWait))
  | .next id => .ofCall (s.call id (some .next) (some .stream))
  | .all id => .ofCall (s.call id (some (.all [])) none)
  | .one id => .ofCall (s.call id (some .one) none)
  | .close id => .done (s.withCursor id s.closeCursor)
  | .intoStream id => .done (s.withCursor id fun p => (.ok, s.setSlot id (.stream p)))
  | .cursor id => .done (s.withCursor id fun p => (s.showCursor p, s))
  | .cancel id => s.withName id cancel
  | .drop id => s.withName id forget
  | .continueQuery token => s.tryConnection (·.continueQuery token)
  | .stopQuery token => s.tryConnection (·.stop token)
  | .closeConnection => .done (s.withConnection fun c => (.ok, c.close))
  | .connection => .done (s.withConnection fun c => (.connection c, c))
  | .dropConnection => .done (s.withConnection fun c => (.ok, c.drop))
  | .reply r => s.send (bytesOf r.encodeFrame)
  | .frame f => s.send (bytesOf (encodeFrame f.token f.payload))
  | .bytes bytes => s.send bytes
  | .shutDown => s.atServer fun l => { l with connection := l.connection.receiveEnd }
  | .hangUp => s.atServer (·.hangUp)
  | .failRead reason =>
    s.atServer fun l => { l with connection := l.connection.receiveFailure reason }
  | .failWrite reason =>
    s.atServer fun l => { l with connection := l.connection.breakWriting reason }
  | .mock name settings => .done (.ok, s.addMock name settings)
  | .expect id site term options => .done (s.expect id site term options)
  | .configure id change => .done (s.configure id change)
  | .feed name => .done (.ok, s.createFeed name)
  | .push name values => .done (s.push name values)
  | .closeFeed name => .done (s.withFeed name fun src => (.ok, src.close))
  | .gate name isOpen => .done (.ok, s.createGate name isOpen)
  | .setGate name isOpen => .done (s.withGate name (·.set isOpen))
  | .dropGate name => .done (s.withGate name (·.abandon))
  | .isConnected => .shown s (.flag true)
  | .expectedTerm id => .shown s (s.expectedTerm id)
  | .question id mock q => .shown s (s.question id mock q)
  | .assertExpectations mock =>
    .shown s (s.ofMock mock fun m => resultOfAssertion m.assertExpectations)
  | .executions mock => .shown s (s.ofMock mock fun m => .log m.log)
  | .advance seconds => .ofEnded (s.pass seconds)

def observe (s : Session) : List FrameEvent × Session :=
  match s.lines[ownLine]? with
  | none => ([], s)
  | some l =>
    let (events, l) := l.observe
    (events, { s with lines := s.lines.set ownLine l })

/-- Carries a command out and lets everything go on until all calls wait. -/
def step (s : Session) (c : Command) : Report × Session :=
  let p := s.perform c
  let (late, s) := p.session.settle
  let (received, s) := s.observe
  let ended := (p.ended ++ late).mergeSort fun a b => decide (a.1 ≤ b.1)
  match p.result, c.call? with
  | some r, _ => (⟨r, ended, received⟩, s)
  | none, none => (⟨.pending, ended, received⟩, s)
  | none, some name =>
    (⟨(ended.lookup name).getD .pending, ended.filter fun d => d.1 ≠ name, received⟩, s)

def run (s : Session) : List Command → List Report
  | [] => []
  | c :: rest =>
    let (report, s) := s.step c
    report :: run s rest

end Reql.Session
