import Reql.Frame.Reader
import Reql.Mock.Source
import Reql.Query.Basic
import Reql.Response.Payload

/-! The server that answers one mocked query. -/
namespace Reql.Mock

/-- Where a server takes its values from: one chunk of its own, which it hands out once, or a
source that it shares with other servers. -/
inductive Stock where
  | own (chunk : Option Chunk)
  | shared (source : SourceId)
deriving DecidableEq

/-- A server of one connection. It is `exhausted` once there are no more values or it was asked to
stop, and `gone` once the client has hung up. A request that waits for values is `pending`. -/
structure Server where
  stock : Stock
  exhausted : Bool
  pending : Option Token
  reader : FrameReader
  gone : Bool
deriving DecidableEq

namespace Server

def start (stock : Stock) : Server :=
  ⟨stock, false, none, .start .default, false⟩

/-- The answer that ends a query. -/
def ending (token : Token) : Response :=
  .plain token (.sequence [])

def exhaust (s : Server) : Server :=
  { s with exhausted := true, pending := none }

def leave (s : Server) : Server :=
  { s with pending := none, gone := true }

/-- A frame arrives while no request is pending. A request for values becomes pending, unless
there are no more; everything else is answered at once. -/
def accept (s : Server) (f : Frame) : Option Response × Server :=
  match QueryType.peek f.payload with
  | .ok .start | .ok .continue =>
    if s.exhausted then (some (ending f.token), s) else (none, { s with pending := some f.token })
  | .ok .stop => (some (ending f.token), s.exhaust)
  | .ok .noreplyWait => (some (.plain f.token .waitComplete), s)
  | .error e => (some (.plain f.token (.error .client e.message none)), s)

/-- A frame arrives while a request is pending. Only a request to stop is heeded. -/
def interrupt (s : Server) (f : Frame) : Option Response × Server :=
  match QueryType.peek f.payload with
  | .ok .stop => (some (ending f.token), s.exhaust)
  | _ => (none, s)

def handle (s : Server) : FrameEvent → Option Response × Server
  | .frame f =>
    if s.gone then (none, s) else if s.pending.isSome then s.interrupt f else s.accept f
  | .failed _ | .ended => (none, s.leave)

def handleAll (s : Server) : List FrameEvent → List Response × Server
  | [] => ([], s)
  | e :: rest =>
    let (r, s) := s.handle e
    let (more, s) := s.handleAll rest
    (r.toList ++ more, s)

/-- Reads bytes, and the end of the stream if it is there. -/
def read (s : Server) (chunk : Bytes) (ended : Bool) : List Response × Server :=
  let (events, reader) := s.reader.receive chunk
  let (last, reader) := if ended then reader.finish else ([], reader)
  { s with reader }.handleAll (events ++ last)

def request (s : Server) (reader : ReaderId) (sources : List Source) :
    Supply × Stock × List Source :=
  match s.stock with
  | .own (some values) => (.chunk values, .own none, sources)
  | .own none => (.exhausted, .own none, sources)
  | .shared id =>
    match sources[id]? with
    | none => (.exhausted, .shared id, sources)
    | some source =>
      let (supply, source) := source.take reader
      (supply, .shared id, sources.set id source)

/-- Tries to answer the pending request. It takes at most one chunk. -/
def serve (s : Server) (reader : ReaderId) (sources : List Source) :
    Option Response × Server × List Source :=
  match s.pending with
  | none => (none, s, sources)
  | some token =>
    match s.request reader sources with
    | (.wait, stock, sources) => (none, { s with stock }, sources)
    | (.exhausted, stock, sources) => (some (ending token), { s with stock }.exhaust, sources)
    | (.chunk values, stock, sources) =>
      (some (.plain token (.batch values)), { s with stock, pending := none }, sources)

/-- A server without a pending request waits for no source. -/
def release (s : Server) (reader : ReaderId) (sources : List Source) : List Source :=
  match s.pending, s.stock with
  | none, .shared id => sources.modify id (·.leave reader)
  | _, _ => sources

/-- The bytes of answers. An answer that does not fit into a frame ends the server. -/
def send (s : Server) : List Response → Bytes × Server
  | [] => ([], s)
  | r :: rest =>
    match Frame.encode .default ⟨r.token, r.encode⟩ [] with
    | .error _ => ([], s.leave)
    | .ok bytes =>
      let (more, s) := s.send rest
      (bytes ++ more, s)

/-- The server takes what has arrived, answers what it can, and gives the bytes of its answers.
Values are pulled only when everything that has arrived is read, so a request that is followed by
a stop or a hang-up takes none. -/
def step (s : Server) (reader : ReaderId) (chunk : Bytes) (ended : Bool) (sources : List Source) :
    Bytes × Server × List Source :=
  let (replies, s) := s.read chunk ended
  let (reply, s, sources) := s.serve reader sources
  let (bytes, s) := s.send (replies ++ reply.toList)
  (bytes, s, s.release reader sources)

end Server
end Reql.Mock
