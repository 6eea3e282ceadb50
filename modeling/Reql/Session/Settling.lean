import Reql.Session.Basic

/-! How calls in progress go on, until all of them wait. -/
namespace Reql.Session

/-- What a step gives. `pending` says that the call which it began is in progress, `started` that
the cursor of a query can be used. -/
inductive Result where
  | ok
  | pending
  | started (token : Token)
  | value (value : Json)
  | ended
  | values (values : List Json)
  | failed (error : ClientError)
  | busy
  | noCursor
  | noConnection
  | unknownName
  | cursor (cursor : Cursor)
  | connection (connection : Connection)
  | flag (flag : Bool)
  | count (count : Nat)
  | term (term : Term)
  | log (log : List Mock.Execution)
  | refuted (failure : Mock.AssertionFailure)

/-- What is left under the name of a call after its outcome. -/
def slotAfter (p : Place) : Call → Outcome → Slot
  | .run, .ready => .cursor p
  | .run, _ | .exec, _ | .barrier, _ => .vacant
  | .stream, .ended => .vacant
  | .stream, _ => .stream p
  | .next, _ | .all _, _ | .one, _ => .cursor p

/-- The outcome of a call as the result of a step. -/
def resultOf (s : Session) (p : Place) : Outcome → Result
  | .value v => .value v
  | .ended => .ended
  | .values vs => .values vs
  | .ready =>
    match s.cursorAt? p with
    | some k => .started k.token
    | none => .noCursor
  | .done => .ok
  | .failed e => .failed e

/-- Goes on with a call on a cursor: it ends, or it waits. -/
def read (s : Session) (name : String) (p : Place) (call : Call) : Option Result × Session :=
  match s.onConnection p.line fun c => c.advance p.cursor call with
  | (some (.inl outcome), s) =>
    (some (s.resultOf p outcome), (s.removeJob name).setSlot name (slotAfter p call outcome))
  | (some (.inr rest), s) => (none, s.setTask name (.reading p rest))
  | (none, s) => (some .noCursor, s.removeJob name)

/-- The call that a query goes on with once it has a cursor. -/
def Manner.call? : Manner → Option Call
  | .query => none
  | .run => some .run
  | .exec => some .exec

def begin (s : Session) (name : String) (p : Place) (manner : Manner) : Option Result × Session :=
  match manner.call? with
  | none => (some (s.resultOf p .ready), (s.removeJob name).setSlot name (.cursor p))
  | some call => s.read name p call

/-- Answers a claimed call whose gate is open. -/
def answer (s : Session) (name : String) (id : MockId) (claim : Mock.Claim) (manner : Manner) :
    Option Result × Session :=
  match s.mocks[id]? with
  | none => (some .unknownName, s.removeJob name)
  | some m =>
    let (result, m) := m.finish claim
    let s := { s with mocks := s.mocks.set id m }
    match result with
    | .error e => (some (.failed e), s.removeJob name)
    | .ok connection =>
      let (line, s) := s.addLine (.mocked connection m.settings.handoff claim.answer.stock)
      s.begin name ⟨line, 0⟩ manner

/-- Goes on with the call under a name, as far as it can. -/
def proceed (s : Session) (name : String) : Option Result × Session :=
  match s.job? name with
  | none => (none, s)
  | some j =>
    match j.task with
    | .reading p call => s.read name p call
    | .gated since id claim manner =>
      if s.isReleased since claim.gate then s.answer name id claim manner else (none, s)

/-- Goes on with the calls under some names, and lists those that end. -/
def proceedAll (s : Session) : List String → List (String × Result) × Session
  | [] => ([], s)
  | name :: rest =>
    match s.proceed name with
    | (none, s) => s.proceedAll rest
    | (some r, s) =>
      let (more, s) := s.proceedAll rest
      ((name, r) :: more, s)

/-- The far ends of the lines read what has arrived, and answer; the lines come in order. -/
def exchangeFrom (sources : List Mock.Source) : LineId → List Line → List Line × List Mock.Source
  | _, [] => ([], sources)
  | id, l :: rest =>
    let (l, sources) := l.exchange id sources
    let (rest, sources) := exchangeFrom sources (id + 1) rest
    (l :: rest, sources)

/-- All far ends read and answer. -/
def exchange (s : Session) : Session :=
  let (lines, sources) := exchangeFrom s.sources 0 s.lines
  { s with lines, sources }

/-- Lets calls and servers go on by turns, at most the given number of times, and lists the calls
that end. A turn that changes no line, source or call is the last. -/
def turns : Nat → Session → List (String × Result) × Session
  | 0, s => ([], s)
  | bound + 1, s =>
    let (done, t) := s.proceedAll (s.jobs.map (·.name))
    let t := t.exchange
    if t.lines = s.lines ∧ t.sources = s.sources ∧ t.jobs = s.jobs then (done, t)
    else
      let (more, t) := turns bound t
      (done ++ more, t)

/-- The number of turns that suffice. A chunk takes two turns, one to reach its call and one for
the request of more; every call and every line takes a few besides. -/
def turnBound (s : Session) : Nat :=
  let stock := (s.sources.flatMap fun src => src.chunks).length
  2 * stock + 4 * s.lines.length + 4 * s.jobs.length + 4

/-- Lets calls and servers go on until all of them wait. -/
def settle (s : Session) : List (String × Result) × Session :=
  turns s.turnBound s

end Reql.Session
