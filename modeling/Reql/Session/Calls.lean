import Reql.Session.Settling

/-! How calls begin and how they are given up. -/
namespace Reql.Session

/-- Drops the call in progress under a name. The cursor of a query that was still being run is
dropped with it. -/
def cancel (s : Session) (name : String) : Session :=
  match s.job? name with
  | none => s
  | some j =>
    let s := s.removeJob name
    match j.task with
    | .reading p .run | .reading p .exec | .reading p .barrier => s.dropCursor p
    | _ => s

/-- Drops the call in progress under a name, and its cursor, and forgets the name. -/
def forget (s : Session) (name : String) : Session :=
  let s := s.cancel name
  let s :=
    match s.slots.get? name with
    | some (.cursor p) | some (.stream p) => s.dropCursor p
    | some .vacant | none => s
  { s with slots := s.slots.filter fun slot => slot.1 ≠ name }

/-- Frees a name for a new call, after dropping what it stood for. -/
def renew (s : Session) (name : String) : Session :=
  (s.forget name).setSlot name .vacant

def beginReading (s : Session) (name : String) (p : Place) (call : Call) :
    Option Result × Session :=
  (s.addJob ⟨name, .reading p call⟩).read name p call

/-- Whether the connection of the session is still held by its owner. -/
def holdsConnection (s : Session) : Bool :=
  match s.lines[ownLine]? with
  | some l => l.connection.held
  | none => false

/-- Does something with the connection of the session, if its owner still holds it. -/
def withConnection (s : Session) (f : Connection → Result × Connection) : Result × Session :=
  if s.holdsConnection then
    match s.onConnection ownLine f with
    | (some r, s) => (r, s)
    | (none, s) => (.noConnection, s)
  else (.noConnection, s)

/-- Puts a query to the connection of the session, and goes on with the given call, if any. -/
def askConnection (s : Session) (name : String) (call : Option Call)
    (put : Connection → Except ClientError CursorId × Connection) : Option Result × Session :=
  if s.holdsConnection then
    match (s.renew name).onConnection ownLine put with
    | (none, s) => (some .noConnection, s)
    | (some (.error e), s) => (some (.failed e), s)
    | (some (.ok cursor), s) =>
      let p : Place := ⟨ownLine, cursor⟩
      match call with
      | none => (some (s.resultOf p .ready), s.setSlot name (.cursor p))
      | some call => s.beginReading name p call
  else (some .noConnection, s)

def askMock (s : Session) (name mock : String) (manner : Manner) (term : Term)
    (options : QueryOptions) : Option Result × Session :=
  let s := s.renew name
  match s.mockNamed? mock with
  | none => (some .unknownName, s)
  | some (id, m) =>
    let (claim, m) := m.begin term options
    let s := { s with mocks := s.mocks.set id m }
    match claim with
    | .error e => (some (.failed e), s)
    | .ok claim => (s.addJob ⟨name, .gated s.clock id claim manner⟩).proceed name

/-- Begins a call on the cursor under a name, unless another one is in progress there. A cursor
that is read as a stream has a call of its own. -/
def call (s : Session) (name : String) (onCursor onStream : Option Call) :
    Option Result × Session :=
  if (s.job? name).isSome then (some .busy, s)
  else
    match s.slots.get? name, onCursor, onStream with
    | some (.cursor p), some call, _ => s.beginReading name p call
    | some (.stream p), _, some call => s.beginReading name p call
    | _, _, _ => (some .noCursor, s)

/-- Does something with the cursor under a name, unless a call on it is in progress or it is read
as a stream. -/
def withCursor (s : Session) (name : String) (f : Place → Result × Session) : Result × Session :=
  if (s.job? name).isSome then (.busy, s)
  else
    match s.slots.get? name with
    | some (.cursor p) => f p
    | some (.stream _) | some .vacant | none => (.noCursor, s)

def closeCursor (s : Session) (p : Place) : Result × Session :=
  match s.onConnection p.line (·.closeCursor p.cursor) with
  | (some (some e), s) => (.failed e, s)
  | (some none, s) => (.ok, s)
  | (none, s) => (.noCursor, s)

def showCursor (s : Session) (p : Place) : Result :=
  match s.cursorAt? p with
  | some k => .cursor k
  | none => .noCursor

end Reql.Session
