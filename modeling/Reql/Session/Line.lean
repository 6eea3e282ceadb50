import Reql.Connection.Call
import Reql.Mock.Server

/-! Connections together with what is at their far end. -/
namespace Reql.Session

/-- The far end of a connection: a server whose part is played from outside, as long as it is
`present`, or the server of a mocked query. -/
inductive FarEnd where
  | played (reader : FrameReader) (present : Bool)
  | mocked (server : Mock.Server)
deriving DecidableEq

/-- A connection, its far end, and the number of bytes that have been read there. Of the frames
that arrive at once, `handoff` are routed before the calls that wait for them go on. -/
structure Line where
  connection : Connection
  handoff : Nat
  taken : Nat
  farEnd : FarEnd
deriving DecidableEq

namespace Line

def played (settings : Settings) : Line :=
  ⟨.start settings, settings.handoff, 0, .played (.start .default) true⟩

def mocked (connection : Connection) (handoff : Nat) (stock : Mock.Stock) : Line :=
  ⟨connection, handoff, 0, .mocked (.start stock)⟩

/-- Whether the far end can read the end of the stream. -/
def ended (l : Line) : Bool :=
  l.connection.writer.link.ended

/-- The bytes that have reached the far end and have not been read there. -/
def unread (l : Line) : Bytes :=
  l.connection.writer.link.delivered.drop l.taken

/-- Marks all bytes as read at the far end. -/
def takeAll (l : Line) : Line :=
  { l with taken := l.connection.writer.link.delivered.length }

def isPresent (l : Line) : Bool :=
  match l.farEnd with
  | .played _ present => present
  | .mocked _ => false

def hangUp (l : Line) : Line :=
  match l.farEnd with
  | .played reader _ =>
    { l with connection := l.connection.receiveEnd, farEnd := .played reader false }
  | .mocked _ => l

/-- What a played server has received since it was last asked. -/
def observe (l : Line) : List FrameEvent × Line :=
  match l.farEnd with
  | .mocked _ => ([], l)
  | .played reader present =>
    let (events, reader) := reader.receive l.unread
    let (last, reader) := if l.ended then reader.finish else ([], reader)
    (if present then events ++ last else [], { l.takeAll with farEnd := .played reader present })

/-- The far end of the line with the given number reads what has arrived, and answers. -/
def exchange (l : Line) (id : Mock.ReaderId) (sources : List Mock.Source) :
    Line × List Mock.Source :=
  match l.farEnd with
  | .played _ _ => (l, sources)
  | .mocked server =>
    let (bytes, server, sources) := server.step id l.unread l.ended sources
    let connection := l.connection.receive bytes
    let connection := if server.gone then connection.receiveEnd else connection
    ({ l.takeAll with connection, farEnd := .mocked server }, sources)

end Line
end Reql.Session
