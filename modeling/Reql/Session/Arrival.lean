import Reql.Session.Settling

/-! How bytes and time reach the calls that wait for them. -/
namespace Reql.Session

/-- The calls that read a cursor with the given token on the session's own connection. -/
def readersOf (s : Session) (token : Token) : List String :=
  s.jobs.filterMap fun j =>
    match j.task with
    | .gated .. => none
    | .reading p _ =>
      if p.line = ownLine ∧ (s.cursorAt? p).map (·.token) = some token then some j.name else none

/-- The calls that wait for some tokens go on, in the order of the tokens. -/
def wake (s : Session) : List Token → List (String × Result) × Session
  | [] => ([], s)
  | token :: rest =>
    let (done, s) := s.proceedAll (s.readersOf token)
    let (more, s) := s.wake rest
    (done ++ more, s)

def tokenOf : FrameEvent → Option Token
  | .frame f => some f.token
  | .failed _ | .ended => none

/-- Routes events in order. When `room` of them have been routed the calls that wait for the
`tokens` so far go on, and there is room for `capacity` events again. -/
def route (s : Session) (capacity : Nat) :
    Nat → List Token → List FrameEvent → List (String × Result) × Session
  | _, tokens, [] => s.wake tokens
  | room, tokens, e :: rest =>
    if room = 0 then
      let (done, s) := s.wake tokens
      let s := s.modifyConnection ownLine (·.handle e)
      let (more, s) := route s capacity (capacity - 1) (tokenOf e).toList rest
      (done ++ more, s)
    else
      let s := s.modifyConnection ownLine (·.handle e)
      route s capacity (room - 1) (tokens ++ (tokenOf e).toList) rest

/-- The session's own connection reads bytes. A closed connection reads no more. -/
def arrive (s : Session) (chunk : Bytes) : List (String × Result) × Session :=
  match s.lines[ownLine]? with
  | none => ([], s)
  | some l =>
    if l.connection.closed then ([], s)
    else
      let (events, reader) := l.connection.reader.receive chunk
      let s := s.modifyConnection ownLine fun c => { c with reader }
      s.route l.handoff l.handoff [] events

/-- The calls that wait for time to pass, with the times when they may go on. -/
def delayed (s : Session) : List (String × Nat) :=
  s.jobs.filterMap fun j =>
    match j.task with
    | .gated since _ ⟨_, _, _, _, some (.after seconds)⟩ _ => some (j.name, since + seconds)
    | _ => none

/-- Time passes. Calls whose time has come go on in the order of their times. -/
def pass (s : Session) (seconds : Nat) : List (String × Result) × Session :=
  let s := { s with clock := s.clock + seconds }
  s.proceedAll ((s.delayed.mergeSort fun a b => decide (a.2 ≤ b.2)).map (·.1))

end Reql.Session
