import Reql.Fields
import Reql.Mock.Assertion
import Reql.Session.Line

/-! Sessions: named cursors, mocks, expectations, feeds and gates, and the calls in progress. -/
namespace Reql
namespace Session

abbrev LineId := Nat

abbrev MockId := Nat

/-- A cursor of a session. -/
structure Place where
  line : LineId
  cursor : CursorId
deriving DecidableEq, Repr

/-- What a name of a cursor stands for: nothing any more, a cursor, or a cursor read as a stream. -/
inductive Slot where
  | vacant
  | cursor (place : Place)
  | stream (place : Place)
deriving DecidableEq, Repr

/-- How a query is run: for its cursor at once, for its cursor when the first answer is there, or
for its effect. -/
inductive Manner where
  | query
  | run
  | exec
deriving DecidableEq, Repr

/-- What a call does: it waits at the gate of a mock since some time, or it reads a cursor. -/
inductive Task where
  | gated (since : Nat) (mock : MockId) (claim : Mock.Claim) (manner : Manner)
  | reading (place : Place) (call : Call)
deriving DecidableEq

/-- A call in progress under a name. -/
structure Job where
  name : String
  task : Task
deriving DecidableEq

/-- A gate, whose owner may be gone. -/
structure GateState where
  isOpen : Bool
  abandoned : Bool
deriving DecidableEq, Repr

/-- Opens or closes a gate, if its owner is there. -/
def GateState.set (g : GateState) (isOpen : Bool) : GateState :=
  if g.abandoned then g else { g with isOpen }

/-- The owner of a gate goes; nobody waits at it any more. -/
def GateState.abandon (g : GateState) : GateState :=
  { g with abandoned := true }

def GateState.lets (g : GateState) : Bool :=
  g.isOpen || g.abandoned

/-- A registered expectation. -/
structure Handle where
  mock : MockId
  index : Nat
deriving DecidableEq, Repr

end Session

/-- A session. The jobs are in the order of their start; names lead to places in the lists. Time
counts seconds. -/
structure Session where
  lines : List Session.Line
  mocks : List Mock
  sources : List Mock.Source
  gates : List Session.GateState
  clock : Nat
  slots : Fields Session.Slot
  jobs : List Session.Job
  mockNames : Fields Session.MockId
  handles : Fields Session.Handle
  feedNames : Fields Mock.SourceId
  gateNames : Fields Mock.GateId

namespace Session

def empty : Session :=
  ⟨[], [], [], [], 0, [], [], [], [], [], []⟩

/-- A session with one connection, to a server that is played from outside. -/
def connect (settings : Settings) : Session :=
  { empty with lines := [.played settings] }

def addMock (s : Session) (name : String) (settings : Settings) : Session :=
  { s with
    mocks := s.mocks ++ [.start settings]
    mockNames := s.mockNames.insert name s.mocks.length }

def mockNamed? (s : Session) (name : String) : Option (MockId × Mock) :=
  match s.mockNames.get? name with
  | none => none
  | some id => s.mocks[id]?.map fun m => (id, m)

/-- The name of the mock that is there from the start. -/
def firstMock : String := "m"

def mock (settings : Settings) : Session :=
  empty.addMock firstMock settings

/-- The connection of the session itself. -/
def ownLine : LineId := 0

def modifyLine (s : Session) (id : LineId) (f : Line → Line) : Session :=
  { s with lines := s.lines.modify id f }

def modifyConnection (s : Session) (id : LineId) (f : Connection → Connection) : Session :=
  s.modifyLine id fun l => { l with connection := f l.connection }

/-- Does something on the connection of a line that gives a result. -/
def onConnection {α : Type} (s : Session) (id : LineId) (f : Connection → α × Connection) :
    Option α × Session :=
  match s.lines[id]? with
  | none => (none, s)
  | some l =>
    let (result, connection) := f l.connection
    (some result, { s with lines := s.lines.set id { l with connection } })

def addLine (s : Session) (l : Line) : LineId × Session :=
  (s.lines.length, { s with lines := s.lines ++ [l] })

def cursorAt? (s : Session) (p : Place) : Option Cursor :=
  s.lines[p.line]?.bind fun l => l.connection.cursors[p.cursor]?

def dropCursor (s : Session) (p : Place) : Session :=
  s.modifyConnection p.line (·.dropCursor p.cursor)

/-- Gives a name of a cursor its meaning. -/
def setSlot (s : Session) (name : String) (slot : Slot) : Session :=
  { s with slots := s.slots.insert name slot }

def job? (s : Session) (name : String) : Option Job :=
  s.jobs.find? (·.name = name)

def addJob (s : Session) (j : Job) : Session :=
  { s with jobs := s.jobs ++ [j] }

def removeJob (s : Session) (name : String) : Session :=
  { s with jobs := s.jobs.filter (·.name ≠ name) }

def setTask (s : Session) (name : String) (task : Task) : Session :=
  { s with jobs := s.jobs.map fun j => if j.name = name then { j with task } else j }

/-- Whether a call that has waited since some time may go on. -/
def isReleased (s : Session) (since : Nat) : Option Mock.Gate → Bool
  | none => true
  | some (.after seconds) => decide (since + seconds ≤ s.clock)
  | some (.untilOpen id) =>
    match s.gates[id]? with
    | some g => g.lets
    | none => true

end Session
end Reql
