import Reql.Session.Command

/-! Commands on mocks, feeds and gates. -/
namespace Reql.Session

def resultOfAssertion : Option Mock.AssertionFailure → Result
  | none => .ok
  | some f => .refuted f

/-- The expectation under a name, and the mock that has it. -/
def handle? (s : Session) (id : String) : Option (Handle × Mock) :=
  match s.handles.get? id with
  | none => none
  | some h => s.mocks[h.mock]?.map fun m => (h, m)

def siteMock? (s : Session) : Site → Option (MockId × Mock)
  | .mock name => s.mockNamed? name
  | .besides id => (s.handle? id).map fun (h, m) => (h.mock, m)

def expect (s : Session) (id : String) (site : Site) (term : Term) (options : QueryOptions) :
    Result × Session :=
  match s.siteMock? site with
  | none => (.unknownName, s)
  | some (mock, m) =>
    let (index, m) := m.expect term options
    (.ok, { s with
      mocks := s.mocks.set mock m
      handles := Fields.insert id ⟨mock, index⟩ s.handles })

/-- What an expectation gets for an answer. A new source is added to those of the session. -/
def answerOf (s : Session) : Reply → Option Mock.Answer × Session
  | .answer a => (some a, s)
  | .source src => (some (.source s.sources.length), { s with sources := s.sources ++ [src] })
  | .feed name => ((s.feedNames.get? name).map .source, s)

def editOf (s : Session) : Change → Option (Mock.Expectation → Mock.Expectation) × Session
  | .reply r =>
    let (answer, s) := s.answerOf r
    (answer.map fun answer e => { e with answer }, s)
  | .error err => (some fun e => { e with error := some err }, s)
  | .times n => (some fun e => { e with repeats := .times n }, s)
  | .after seconds => (some fun e => { e with gate := some (.after seconds) }, s)
  | .untilOpen name =>
    ((s.gateNames.get? name).map fun id e => { e with gate := some (.untilOpen id) }, s)

def configure (s : Session) (id : String) (change : Change) : Result × Session :=
  match s.handle? id, s.editOf change with
  | some (h, m), (some edit, s) =>
    (.ok, { s with mocks := s.mocks.set h.mock (m.configure h.index edit) })
  | _, (_, s) => (.unknownName, s)

def withFeed (s : Session) (name : String) (f : Mock.Source → Result × Mock.Source) :
    Result × Session :=
  match s.feedNames.get? name with
  | none => (.unknownName, s)
  | some id =>
    match s.sources[id]? with
    | none => (.unknownName, s)
    | some src =>
      let (r, src) := f src
      (r, { s with sources := s.sources.set id src })

def push (s : Session) (name : String) (values : Mock.Chunk) : Result × Session :=
  s.withFeed name fun src =>
    let (accepted, src) := src.push values
    (.flag accepted, src)

/-- Creates a feed. One that had the name before is closed. -/
def createFeed (s : Session) (name : String) : Session :=
  let s := (s.withFeed name fun src => (.ok, src.close)).2
  { s with
    sources := s.sources ++ [.emptyFeed]
    feedNames := Fields.insert name s.sources.length s.feedNames }

def withGate (s : Session) (name : String) (f : GateState → GateState) : Result × Session :=
  match s.gateNames.get? name with
  | none => (.unknownName, s)
  | some id => (.ok, { s with gates := s.gates.modify id f })

/-- Creates a gate. One that had the name before has lost its owner. -/
def createGate (s : Session) (name : String) (isOpen : Bool) : Session :=
  let s := (s.withGate name (·.abandon)).2
  { s with
    gates := s.gates ++ [⟨isOpen, false⟩]
    gateNames := Fields.insert name s.gates.length s.gateNames }

def expectedTerm (s : Session) (id : String) : Result :=
  match s.handle? id with
  | some (h, m) => .term (m.expectedTerm h.index)
  | none => .unknownName

/-- Answers a question about the expectation under a name. The calls are those of the given mock,
where the expectation in the same place is looked up, and the query is that of the expectation. -/
def question (s : Session) (id : String) (mock : Option String) (q : Question) : Result :=
  match s.handle? id, mock.map s.mockNamed? with
  | none, _ | _, some none => .unknownName
  | some (h, own), asked =>
    let m := match asked with
      | some (some (_, m)) => m
      | _ => own
    match q with
    | .count => .count (m.executionCount h.index)
    | .isNumber n => resultOfAssertion (m.assertNumber h.index n)
    | .isExecuted => resultOfAssertion (m.assertExecuted h.index (own.expectedTerm h.index))
    | .isNotExecuted => resultOfAssertion (m.assertNotExecuted h.index (own.expectedTerm h.index))

def ofMock (s : Session) (name : String) (f : Mock → Result) : Result :=
  match s.mockNamed? name with
  | some (_, m) => f m
  | none => .unknownName

end Reql.Session
