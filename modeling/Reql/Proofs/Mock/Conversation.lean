import Reql.Proofs.Connection.Stopping
import Reql.Proofs.Mock.Caller
import Reql.Proofs.Mock.Service
import Reql.Proofs.Mock.Sharing
import Reql.Proofs.Query.Announcing
import Reql.Proofs.Response.Coding

/-! A mocked query at work: its caller and its server take turns until all has been read. -/
namespace Reql

/-- The source that the far end of a line shares with others. -/
def Session.Line.source? (l : Session.Line) : Option Mock.SourceId :=
  l.server?.bind fun server => server.stock.source?

namespace Mock

/-- What a stock still gives to a server that has it to itself. -/
def Stocked (stock : Stock) (sources : List Source) (rest : List Chunk) : Prop :=
  match stock with
  | .own none => rest = []
  | .own (some values) => rest = [values]
  | .shared id => sources[id]? = some (.ofChunks rest)

theorem Stocked.of_own {stock : Stock} {sources sources' : List Source} {rest : List Chunk}
    (h : Stocked stock sources rest)
    (hown : ∀ id, stock.source? = some id → sources'[id]? = sources[id]?) :
    Stocked stock sources' rest := by
  cases stock with
  | own chunk => cases chunk <;> exact h
  | shared id => exact (hown id rfl).trans h

/-- The answer to a request that a chunk is left for. -/
def carrying (token : Token) (values : Chunk) : Response :=
  .plain token (.batch values)

/-- A frame that asks for values, and that the server of a mocked query takes. -/
structure Asking (f : Frame) : Prop where
  type : QueryType.peek f.payload = .ok .start ∨ QueryType.peek f.payload = .ok .continue
  fits : f.payload.length ≤ FrameLimit.default.bytes

theorem asking_of_payload {q : Query} {p : Bytes} (hp : q.payload = .ok p)
    (htype : q.type = .start ∨ q.type = .continue) (hdepth : q.depth ≤ Json.maxLevels)
    (hfits : p.length ≤ FrameLimit.default.bytes) : Asking ⟨q.token, p⟩ where
  type := by
    have hpeek := Query.peek_of_depth_le hp hdepth
    rcases htype with htype | htype
    · exact .inl (by rw [hpeek, htype])
    · exact .inr (by rw [hpeek, htype])
  fits := hfits

theorem asking_continue (token : Token) :
    Asking ⟨token, Json.encode (.arr [.ofUInt64 2])⟩ :=
  asking_of_payload (Query.payload_continue token) (.inr rfl)
    (Nat.le_of_ble_eq_true rfl) (by decide +kernel)

namespace Server

variable {stock : Stock} {sources : List Source} {values : Chunk} {rest : List Chunk} {f : Frame}

/-- The end of a query is read back as it is. -/
theorem ending_faithful (token : Token) : (ending token).Faithful where
  results := trivial
  backtrace j hj := by cases hj
  profile j hj := by cases hj
  depth := Nat.le_of_ble_eq_true rfl

theorem start_read (h : Asking f) :
    (start stock).read f.bytes false = ([], { start stock with pending := some f.token }) := by
  have hreceive : (start stock).reader.receive f.bytes = ([.frame f], (start stock).reader) :=
    FrameReader.receive_bytes rfl rfl h.fits
  have haccept : (start stock).accept f =
      (none, { start stock with pending := some f.token }) := by
    unfold accept
    rcases h.type with hpeek | hpeek
    · rw [hpeek]
      rfl
    · rw [hpeek]
      rfl
  have hall : (start stock).handleAll [.frame f] =
      ([], { start stock with pending := some f.token }) := by
    change ((((start stock).accept f).1.toList ++ []), ((start stock).accept f).2) = _
    rw [haccept]
    rfl
  unfold read
  rw [hreceive]
  exact hall

theorem serve_chunk (hstock : Stocked stock sources (values :: rest)) (token : Token)
    (reader : ReaderId) : ∃ stock' sources',
    ({ start stock with pending := some token } : Server).serve reader sources =
        (some (carrying token values), start stock', sources') ∧
      Stocked stock' sources' rest := by
  cases stock with
  | own chunk =>
    cases chunk with
    | none => cases hstock
    | some values' =>
      obtain ⟨rfl, rfl⟩ := List.cons.inj hstock
      exact ⟨.own none, sources, rfl, rfl⟩
  | shared id =>
    have hsrc : sources[id]? = some (.ofChunks (values :: rest)) := hstock
    have hlt := (List.getElem?_eq_some_iff.mp hsrc).1
    refine ⟨.shared id, sources.set id (.ofChunks rest), ?_, List.getElem?_set_self hlt⟩
    simp only [serve, request, start, hsrc]
    rfl

theorem serve_end (hstock : Stocked stock sources []) (token : Token) (reader : ReaderId) :
    ∃ stock' sources', ({ start stock with pending := some token } : Server).serve reader sources =
      (some (ending token), { start stock' with exhausted := true }, sources') := by
  cases stock with
  | own chunk =>
    cases chunk with
    | none => exact ⟨.own none, sources, rfl⟩
    | some values => cases hstock
  | shared id =>
    have hsrc : sources[id]? = some (.ofChunks []) := hstock
    refine ⟨.shared id, sources.set id (.ofChunks []), ?_⟩
    simp only [serve, request, start, hsrc]
    rfl

/-- A stock is not touched by its server giving up the place in its line. -/
theorem release_stocked {s : Server} (hown : s.stock.source? = stock.source?)
    (h : Stocked stock sources rest) (reader : ReaderId) :
    Stocked stock (s.release reader sources) rest := by
  cases stock with
  | own chunk => cases chunk <;> exact h
  | shared id =>
    have hsrc : sources[id]? = some (.ofChunks rest) := h
    rw [release_shared hown]
    split
    · exact h
    · change (sources.modify id _)[id]? = _
      rw [List.getElem?_modify_eq, hsrc]
      rfl

/-- A request is answered by the next chunk. -/
theorem step_chunk (h : Asking f) (hstock : Stocked stock sources (values :: rest))
    (hsent : (carrying f.token values).encode.length ≤ FrameLimit.default.bytes)
    (reader : ReaderId) :
    ∃ stock' sources', (start stock).step reader f.bytes false sources =
        ((frameOf (carrying f.token values)).bytes, start stock', sources') ∧
      Stocked stock' sources' rest := by
  have hfits : fits (carrying f.token values) = true := decide_eq_true hsent
  obtain ⟨stock', sources', hserve, hstock'⟩ := serve_chunk hstock f.token reader
  refine ⟨stock', (start stock').release reader sources', ?_, ?_⟩
  · simp only [step, start_read h, hserve, send_eq, Option.toList_some, List.nil_append,
      List.takeWhile_cons, List.takeWhile_nil, List.all_cons, List.all_nil, hfits, if_true,
      Bool.and_self, List.flatMap_singleton]
  · have hown : (start stock').stock.source? = stock'.source? := rfl
    exact release_stocked hown hstock' reader

/-- Without more chunks a request is answered by the end. -/
theorem step_end (h : Asking f) (hstock : Stocked stock sources []) (reader : ReaderId) :
    ∃ stock' sources', (start stock).step reader f.bytes false sources =
      ((frameOf (ending f.token)).bytes, { start stock' with exhausted := true }, sources') := by
  obtain ⟨stock', sources', hserve⟩ := serve_end hstock f.token reader
  refine ⟨stock', ({ start stock' with exhausted := true } : Server).release reader sources', ?_⟩
  simp only [step, start_read h, hserve, send_eq, Option.toList_some, List.nil_append,
    List.takeWhile_cons, List.takeWhile_nil, List.all_cons, List.all_nil, fits_ending, if_true,
    Bool.and_self, List.flatMap_singleton]

/-- Nothing happens as long as nothing arrives. -/
theorem step_idle {s : Server} (hs : s.pending = none) (hreader : s.reader = .start .default)
    (reader : ReaderId) : s.step reader [] false sources = ([], s, s.release reader sources) := by
  have hread : s.read [] false = ([], s) := by
    unfold read
    rw [hreader]
    change ([], { s with reader := FrameReader.start .default }) = _
    rw [← hreader]
  simp only [step, hread, serve, hs, send, List.append_nil, Option.toList_none]

end Server

/-- A mocked query: the line to its server, the sources, and the call on its cursor or what has
come of it. -/
structure Talk where
  line : Session.Line
  sources : List Source
  call : Outcome ⊕ Call

/-- What can happen to a mocked query at one time. The caller runs the query and then asks for all
its values. Others use other sources than its own, and make new ones. -/
inductive Turn where
  | caller
  | server (reader : ReaderId)
  | others (sources : List Source)

/-- How often the server and then the caller have had a turn. The server may have had the first. -/
def Turn.rounds : Bool → List Turn → Nat
  | _, [] => 0
  | _, .server _ :: turns => rounds true turns
  | true, .caller :: turns => rounds false turns + 1
  | false, .caller :: turns => rounds false turns
  | heard, .others _ :: turns => rounds heard turns

namespace Talk

def start (line : Session.Line) (sources : List Source) : Talk :=
  ⟨line, sources, .inr .run⟩

def goOn (t : Talk) (call : Call) : Talk :=
  let (result, connection) := t.line.connection.advance 0 call
  { t with line := { t.line with connection }, call := result }

def after (t : Talk) : Turn → Talk
  | .caller =>
    match t.call with
    | .inr call => t.goOn call
    | .inl .ready => t.goOn (.all [])
    | .inl _ => t
  | .server reader =>
    let (line, sources) := t.line.exchange reader t.sources
    { t with line, sources }
  | .others sources =>
    if ∀ id ∈ t.line.source?, sources[id]? = t.sources[id]? then { t with sources } else t

theorem after_server {t : Talk} {reader : ReaderId} {line : Session.Line} {sources : List Source}
    (h : t.line.exchange reader t.sources = (line, sources)) :
    t.after (.server reader) = ⟨line, sources, t.call⟩ := by
  simp only [after, h]

@[simp] theorem call_after_server (t : Talk) (reader : ReaderId) :
    (t.after (.server reader)).call = t.call := rfl

@[simp] theorem call_after_others (t : Talk) (sources : List Source) :
    (t.after (.others sources)).call = t.call := by
  rw [after]
  split <;> rfl

theorem after_caller {t : Talk} {call : Call} {result : Outcome ⊕ Call} {connection : Connection}
    (hcall : t.call = .inr call)
    (h : t.line.connection.advance 0 call = (result, connection)) :
    t.after .caller = ⟨{ t.line with connection }, t.sources, result⟩ := by
  simp only [after, hcall, goOn, h]

def run (t : Talk) (turns : List Turn) : Talk :=
  turns.foldl after t

/-- Only a turn of the caller goes on with the call. -/
theorem call_run_exchange (t : Talk) (reader : ReaderId) (before after : List Source) :
    (t.run [.others before, .server reader, .others after]).call = t.call := by
  simp only [run, List.foldl_cons, List.foldl_nil, call_after_others, call_after_server]

end Talk

/-- How far the caller has got: it waits for the first answer, has got it, or has read values, the
latest first. -/
inductive Mode where
  | waiting
  | ready
  | reading (acc : List Json)

namespace Mode

/-- The call on the cursor, or what has come of it. -/
def call : Mode → Outcome ⊕ Call
  | .waiting => .inr .run
  | .ready => .inl .ready
  | .reading acc => .inr (.all acc)

def values : Mode → List Json
  | .waiting | .ready => []
  | .reading acc => acc.reverse

/-- The turns that pass before the caller begins to read. -/
def delay : Mode → Nat
  | .waiting => 2
  | .ready | .reading _ => 0

theorem delay_even (mode : Mode) : mode.delay % 2 = 0 := by
  cases mode <;> rfl

theorem delay_le_two (mode : Mode) : mode.delay ≤ 2 := by
  cases mode with
  | waiting => exact Nat.le_refl 2
  | ready | reading => exact Nat.zero_le 2

/-- A caller that has got the first answer asks for all values, beyond those that it has read. -/
theorem after_caller {mode : Mode} {t : Talk} {result : Outcome ⊕ Call} {connection : Connection}
    (hmode : mode ≠ .waiting) (hcall : t.call = mode.call)
    (h : t.line.connection.advance 0 (.all mode.values.reverse) = (result, connection)) :
    t.after .caller = ⟨{ t.line with connection }, t.sources, result⟩ := by
  cases mode with
  | waiting => exact absurd rfl hmode
  | ready =>
    have hall : t.line.connection.advance 0 (.all []) = (result, connection) := h
    simp only [Talk.after, hcall, call, Talk.goOn, hall]
  | reading acc =>
    rw [values, List.reverse_reverse] at h
    exact Talk.after_caller hcall h

end Mode

/-- A query and all its answers pass between caller and server: they fit into frames on both sides,
are not nested too deep to be read, and the text of an answer gives its values back. -/
structure Passes (s : Settings) (q : Query) (chunks : List Chunk) : Prop where
  accepted : q.refusal? s.frameLimit = none
  heard : ∀ p, q.payload = .ok p → p.length ≤ FrameLimit.default.bytes
  depth : q.depth ≤ Json.maxLevels
  faithful : ∀ values ∈ chunks, Json.FaithfulItems values
  nested : ∀ values ∈ chunks,
    (carrying q.token values).toPayload.document.depth ≤ Json.maxLevels
  sent : ∀ values ∈ chunks,
    (carrying q.token values).encode.length ≤ FrameLimit.default.bytes
  received : ∀ values ∈ chunks, (carrying q.token values).encode.length ≤ s.frameLimit.bytes
  ends : (Server.ending q.token).encode.length ≤ s.frameLimit.bytes

namespace Passes

variable {s : Settings} {q : Query} {chunks : List Chunk}

theorem continues (h : Passes s q chunks) :
    (Query.bare q.token .continue).refusal? s.frameLimit = none := by
  have haccepted := h.accepted
  obtain ⟨token, type, term, options⟩ := q
  cases type with
  | start =>
    cases term with
    | none => cases haccepted
    | some t => exact Query.refusal?_continue haccepted
  | «continue» => exact haccepted
  | stop =>
    have hbare : (Query.bare token .stop).refusal? s.frameLimit = none := haccepted
    exact (Query.refusal?_bare (by decide)).mpr ((Query.refusal?_bare (by decide)).mp hbare)
  | noreplyWait =>
    have hbare : (Query.bare token .noreplyWait).refusal? s.frameLimit = none := haccepted
    exact (Query.refusal?_bare (by decide)).mpr ((Query.refusal?_bare (by decide)).mp hbare)

theorem decodes (h : Passes s q chunks) {values : Chunk} (hmem : values ∈ chunks) :
    Response.decode q.token (carrying q.token values).encode =
      .ok (carrying q.token values) :=
  Response.decode_encode
    { results := h.faithful values hmem
      backtrace := fun j hj => by cases hj
      profile := fun j hj => by cases hj
      depth := h.nested values hmem }

end Passes

/-- What stage a mocked query is at, and the number of turns, of the server and of the caller in
alternation, that bring it to its end. `served` are the chunks that the caller has read, `rest`
those that the server still has. -/
inductive Stage (s : Settings) (term : Term) (q : Query) (chunks : List Chunk) : Nat → Talk → Prop
    where
  | asked {t : Talk} (mode : Mode) (served rest : List Chunk) (handoff taken : Nat) (stock : Stock)
    (f : Frame) (hmode : mode ≠ .ready)
    (hline : t.line = ⟨caller s term q served.length true .start, handoff, taken,
      .mocked (.start stock)⟩)
    (hcall : t.call = mode.call) (hunread : t.line.unread = f.bytes) (hasking : Asking f)
    (htoken : f.token = q.token) (hstock : Stocked stock t.sources rest)
    (hchunks : chunks = served ++ rest) (hvalues : mode.values = served.flatten) :
    Stage s term q chunks (2 * rest.length + 2 + mode.delay) t
  | answered {t : Talk} (mode : Mode) (served : List Chunk) (values : Chunk) (rest : List Chunk)
    (handoff : Nat) (stock : Stock)
    (hline : t.line = ⟨caller s term q served.length true (batched values), handoff,
      (caller s term q served.length true (batched values)).writer.link.delivered.length,
      .mocked (.start stock)⟩)
    (hcall : t.call = mode.call) (hstock : Stocked stock t.sources rest)
    (hchunks : chunks = served ++ values :: rest) (hvalues : mode.values = served.flatten) :
    Stage s term q chunks (2 * rest.length + 3 + mode.delay) t
  | spent {t : Talk} (mode : Mode) (handoff : Nat) (stock : Stock)
    (hline : t.line = ⟨caller s term q chunks.length false .finished, handoff,
      (caller s term q chunks.length false .finished).writer.link.delivered.length,
      .mocked { Server.start stock with exhausted := true }⟩)
    (hcall : t.call = mode.call) (hvalues : mode.values = chunks.flatten) :
    Stage s term q chunks (1 + mode.delay) t
  | done {t : Talk} (hconnection : t.line.connection = parted s term q chunks.length)
    (hcall : t.call = .inl (.values chunks.flatten)) :
    Stage s term q chunks 0 t

/-! ### A turn of the server -/

section Exchange

variable {s : Settings} {term : Term} {q : Query} {chunks : List Chunk} {n : Nat} {l : Session.Line}
  {stock : Stock} {sources : List Source} {values : Chunk} {rest : List Chunk} {f : Frame}

/-- The server of a mocked query takes a turn, and stays. -/
theorem exchange_of_step {server server' : Server} {reader : ReaderId} {sources' : List Source}
    {bytes : Bytes} (hfar : l.farEnd = .mocked server)
    (hstep : server.step reader l.unread l.ended sources = (bytes, server', sources'))
    (hgone : server'.gone = false) :
    l.exchange reader sources = (⟨l.connection.receive bytes, l.handoff,
      l.connection.writer.link.delivered.length, .mocked server'⟩, sources') := by
  simp only [Session.Line.exchange, hfar, hstep, hgone, Bool.false_eq_true, if_false,
    Session.Line.takeAll]

theorem exchange_chunk (hconnection : l.connection = caller s term q n true .start)
    (hfar : l.farEnd = .mocked (.start stock)) (hunread : l.unread = f.bytes) (hasking : Asking f)
    (htoken : f.token = q.token) (hstock : Stocked stock sources (values :: rest))
    (hpasses : Passes s q chunks) (hmem : values ∈ chunks) (reader : ReaderId) :
    ∃ stock' sources', l.exchange reader sources =
        (⟨caller s term q n true (batched values), l.handoff,
          (caller s term q n true .start).writer.link.delivered.length,
          .mocked (.start stock')⟩, sources') ∧
      Stocked stock' sources' rest := by
  have hended : l.ended = false := by
    rw [Session.Line.ended, hconnection]
    rfl
  have hsent := hpasses.sent values hmem
  rw [← htoken] at hsent
  obtain ⟨stock', sources', hstep, hstock'⟩ := Server.step_chunk hasking hstock hsent reader
  rw [← hunread, ← hended, htoken] at hstep
  have hreceive : (caller s term q n true .start).receive
      (frameOf (carrying q.token values)).bytes = caller s term q n true (batched values) :=
    caller_receive rfl (hpasses.received values hmem) (hpasses.decodes hmem)
  refine ⟨stock', sources', ?_, hstock'⟩
  rw [exchange_of_step hfar hstep rfl, hconnection, hreceive]

theorem exchange_end (hconnection : l.connection = caller s term q n true .start)
    (hfar : l.farEnd = .mocked (.start stock)) (hunread : l.unread = f.bytes) (hasking : Asking f)
    (htoken : f.token = q.token) (hstock : Stocked stock sources []) (hpasses : Passes s q chunks)
    (reader : ReaderId) :
    ∃ stock' sources', l.exchange reader sources =
      (⟨caller s term q n false .finished, l.handoff,
        (caller s term q n true .start).writer.link.delivered.length,
        .mocked { Server.start stock' with exhausted := true }⟩, sources') := by
  have hended : l.ended = false := by
    rw [Session.Line.ended, hconnection]
    rfl
  obtain ⟨stock', sources', hstep⟩ := Server.step_end hasking hstock reader
  rw [← hunread, ← hended, htoken] at hstep
  have hreceive : (caller s term q n true .start).receive
      (frameOf (Server.ending q.token)).bytes = caller s term q n false .finished :=
    caller_receive rfl hpasses.ends (Response.decode_encode (Server.ending_faithful q.token))
  refine ⟨stock', sources', ?_⟩
  rw [exchange_of_step hfar hstep rfl, hconnection, hreceive]

/-- A server that has read everything does nothing. -/
theorem exchange_idle {registered : Bool} {inbox : Inbox} {server : Server}
    (hconnection : l.connection = caller s term q n registered inbox)
    (htaken : l.taken = l.connection.writer.link.delivered.length)
    (hfar : l.farEnd = .mocked server) (hpending : server.pending = none)
    (hreader : server.reader = .start .default) (hgone : server.gone = false) (reader : ReaderId) :
    l.exchange reader sources = (l, server.release reader sources) := by
  have hended : l.ended = false := by
    rw [Session.Line.ended, hconnection]
    rfl
  have hunread : l.unread = [] := by
    rw [Session.Line.unread, htaken, List.drop_length]
  have hstep : server.step reader [] false sources = _ :=
    Server.step_idle hpending hreader reader
  rw [← hended] at hstep
  nth_rewrite 1 [← hunread] at hstep
  rw [exchange_of_step hfar hstep hgone, ← htaken, ← hfar]
  obtain ⟨connection, handoff, taken, farEnd⟩ := l
  obtain rfl : connection = _ := hconnection
  rw [caller_receive_nil]

/-- A closed connection stays as it is. -/
theorem exchange_closed (hclosed : l.connection.closed = true) (reader : ReaderId) :
    (l.exchange reader sources).1.connection = l.connection := by
  have hread (next : FrameReader → List FrameEvent × FrameReader) :
      l.connection.read next = l.connection := by
    rw [Connection.read, if_pos hclosed]
  cases hfar : l.farEnd with
  | played reader present => simp only [Session.Line.exchange, hfar]
  | mocked server =>
    simp only [Session.Line.exchange, hfar, Connection.receive, hread, Connection.receiveEnd,
      ite_self]

/-- When more is asked for, the request for it is what a server that has read all before finds. -/
theorem unread_continue {handoff : Nat} {farEnd : Session.FarEnd} {inbox inbox' : Inbox} :
    (Session.Line.mk (caller s term q (n + 1) true inbox) handoff
      (caller s term q n true inbox').writer.link.delivered.length farEnd).unread =
        (Frame.mk q.token (Json.encode (.arr [.ofUInt64 2]))).bytes := by
  have hdelivered : (caller s term q (n + 1) true inbox).writer.link.delivered =
      (caller s term q n true inbox').writer.link.delivered ++
        (Query.bare q.token .continue).bytes := by
    simp only [caller, written, requests_succ, List.flatMap_append, List.flatMap_singleton]
  rw [Session.Line.unread, hdelivered, List.drop_left]
  exact Query.bytes_of_payload (Query.payload_continue q.token)

end Exchange

namespace Stage

variable {s : Settings} {term : Term} {q : Query} {chunks : List Chunk} {w : Nat} {t : Talk}

/-- The server answers what has been asked; otherwise it does nothing. -/
theorem server (h : Stage s term q chunks w t) (hpasses : Passes s q chunks) (reader : ReaderId) :
    ∃ w' ≤ w, Stage s term q chunks w' (t.after (.server reader)) ∧
      (w % 2 = 0 → 0 < w → w' < w) := by
  cases h with
  | asked mode served rest handoff taken stock f hmode hline hcall hunread hasking htoken hstock
      hchunks hvalues =>
    have hconnection : t.line.connection = caller s term q served.length true .start := by
      rw [hline]
    have hfar : t.line.farEnd = .mocked (.start stock) := by rw [hline]
    cases rest with
    | nil =>
      obtain ⟨stock', sources', hexchange⟩ :=
        exchange_end hconnection hfar hunread hasking htoken hstock hpasses reader
      obtain rfl : chunks = served := by rw [hchunks, List.append_nil]
      refine ⟨1 + mode.delay, by rw [List.length_nil]; omega, ?_, by rw [List.length_nil]; omega⟩
      rw [Talk.after_server hexchange]
      exact .spent mode _ stock' rfl hcall hvalues
    | cons values rest =>
      have hmem : values ∈ chunks := by rw [hchunks]; simp
      obtain ⟨stock', sources', hexchange, hstock'⟩ :=
        exchange_chunk hconnection hfar hunread hasking htoken hstock hpasses hmem reader
      refine ⟨2 * rest.length + 3 + mode.delay, by rw [List.length_cons]; omega, ?_, by
        rw [List.length_cons]; omega⟩
      rw [Talk.after_server hexchange]
      exact .answered mode served values rest _ stock' rfl hcall hstock' hchunks hvalues
  | answered mode served values rest handoff stock hline hcall hstock hchunks hvalues =>
    have hexchange : t.line.exchange reader t.sources = _ := exchange_idle
      (by rw [hline]) (by rw [hline]) (by rw [hline]) rfl rfl rfl reader
    have hown : (Server.start stock).stock.source? = stock.source? := rfl
    refine ⟨_, Nat.le_refl _, ?_, ?_⟩
    · rw [Talk.after_server hexchange]
      exact .answered mode served values rest handoff stock hline hcall
        (Server.release_stocked hown hstock reader) hchunks hvalues
    · have := mode.delay_even
      omega
  | spent mode handoff stock hline hcall hvalues =>
    have hexchange : t.line.exchange reader t.sources = _ := exchange_idle
      (by rw [hline]) (by rw [hline]) (by rw [hline]) rfl rfl rfl reader
    refine ⟨_, Nat.le_refl _, ?_, ?_⟩
    · rw [Talk.after_server hexchange]
      exact .spent mode handoff stock hline hcall hvalues
    · have := mode.delay_even
      omega
  | done hconnection hcall =>
    have hclosed : t.line.connection.closed = true := by rw [hconnection]; rfl
    have hkept : (t.line.exchange reader t.sources).1.connection = t.line.connection :=
      exchange_closed hclosed reader
    exact ⟨0, Nat.le_refl _, .done (hkept.trans hconnection) hcall, fun _ h => h⟩

/-- The caller reads what has been answered; otherwise it waits. -/
theorem caller (h : Stage s term q chunks w t) (hpasses : Passes s q chunks) :
    ∃ w' ≤ w, Stage s term q chunks w' (t.after .caller) ∧ (w % 2 = 1 → w' < w) := by
  cases h with
  | asked mode served rest handoff taken stock f hmode hline hcall hunread hasking htoken hstock
      hchunks hvalues =>
    have hconnection : t.line.connection = Mock.caller s term q served.length true .start := by
      rw [hline]
    have hafter : t.after .caller = t := by
      have hwaits : t.after .caller =
          ⟨{ t.line with connection := Mock.caller s term q served.length true .start },
            t.sources, mode.call⟩ := by
        cases mode with
        | waiting => exact Talk.after_caller hcall (by rw [hconnection, caller_run_waits]; rfl)
        | ready => exact absurd rfl hmode
        | reading acc =>
          exact Talk.after_caller hcall (by rw [hconnection, caller_all_waits]; rfl)
      rw [hwaits, ← hconnection, ← hcall]
    refine ⟨_, Nat.le_refl _, ?_, ?_⟩
    · rw [hafter]
      exact .asked mode served rest handoff taken stock f hmode hline hcall hunread hasking htoken
        hstock hchunks hvalues
    · have := mode.delay_even
      omega
  | answered mode served values rest handoff stock hline hcall hstock hchunks hvalues =>
    have hconnection : t.line.connection =
        Mock.caller s term q served.length true (batched values) := by rw [hline]
    by_cases hmode : mode = .waiting
    · subst hmode
      have hafter : t.after .caller = ⟨t.line, t.sources, .inl .ready⟩ := by
        rw [Talk.after_caller hcall (by rw [hconnection, caller_run_ready]), ← hconnection]
      refine ⟨2 * rest.length + 3, by simp only [Mode.delay]; omega, ?_, by
        simp only [Mode.delay]; omega⟩
      rw [hafter]
      exact .answered .ready served values rest handoff stock hline rfl hstock hchunks hvalues
    · have hread : (Mock.caller s term q served.length true (batched values)).advance 0
          (.all mode.values.reverse) = _ :=
        caller_all_batch values mode.values.reverse hpasses.continues
      have hafter := Mode.after_caller hmode hcall (by rw [hconnection, hread])
      refine ⟨2 * rest.length + 2, by omega, ?_, fun _ => by omega⟩
      rw [hafter]
      refine .asked (.reading (values.reverse ++ mode.values.reverse)) (served ++ [values]) rest
        handoff t.line.taken stock ⟨q.token, Json.encode (.arr [.ofUInt64 2])⟩ Mode.noConfusion
        ?_ rfl ?_ (asking_continue q.token) rfl hstock ?_ ?_
      · rw [hline, List.length_append]
        rfl
      · rw [hline]
        exact unread_continue
      · rw [hchunks, List.append_assoc, List.singleton_append]
      · rw [Mode.values, List.reverse_append, List.reverse_reverse, List.reverse_reverse, hvalues,
          List.flatten_append, List.flatten_singleton]
  | spent mode handoff stock hline hcall hvalues =>
    have hconnection : t.line.connection = Mock.caller s term q chunks.length false .finished := by
      rw [hline]
    by_cases hmode : mode = .waiting
    · subst hmode
      have hafter : t.after .caller = ⟨t.line, t.sources, .inl .ready⟩ := by
        rw [Talk.after_caller hcall (by rw [hconnection, caller_run_over]), ← hconnection]
      refine ⟨1, by simp only [Mode.delay]; omega, ?_, by simp only [Mode.delay]; omega⟩
      rw [hafter]
      exact .spent .ready handoff stock hline rfl hvalues
    · have hafter := Mode.after_caller hmode hcall (by rw [hconnection, caller_all_over])
      refine ⟨0, Nat.zero_le _, ?_, fun _ => by omega⟩
      rw [hafter]
      refine .done rfl ?_
      rw [List.reverse_reverse, hvalues]
  | done hconnection hcall =>
    have hafter : t.after .caller = t := by simp only [Talk.after, hcall]
    exact ⟨0, Nat.le_refl _, by rw [hafter]; exact .done hconnection hcall, fun h => by omega⟩

/-- Other sources do not matter. -/
theorem others (h : Stage s term q chunks w t) (sources : List Source) :
    Stage s term q chunks w (t.after (.others sources)) := by
  rw [Talk.after]
  split
  next hown =>
    have hstocked {stock : Stock} {rest : List Chunk} (hstock : Stocked stock t.sources rest)
        (hsource : t.line.source? = stock.source?) : Stocked stock sources rest :=
      hstock.of_own fun id hid => hown id (hsource.trans hid)
    cases h with
    | asked mode served rest handoff taken stock f hmode hline hcall hunread hasking htoken hstock
        hchunks hvalues =>
      exact .asked mode served rest handoff taken stock f hmode hline hcall hunread hasking htoken
        (hstocked hstock (by rw [hline]; rfl)) hchunks hvalues
    | answered mode served values rest handoff stock hline hcall hstock hchunks hvalues =>
      exact .answered mode served values rest handoff stock hline hcall
        (hstocked hstock (by rw [hline]; rfl)) hchunks hvalues
    | spent mode handoff stock hline hcall hvalues =>
      exact .spent mode handoff stock hline hcall hvalues
    | done hconnection hcall => exact .done hconnection hcall
  next => exact h

theorem ended (h : Stage s term q chunks w t) (hw : w = 0) :
    t.line.connection = parted s term q chunks.length ∧ t.call = .inl (.values chunks.flatten) := by
  cases h with
  | asked | answered | spent => omega
  | done hconnection hcall => exact ⟨hconnection, hcall⟩

/-- A mocked query comes to its end when its server and its caller have had enough turns. -/
theorem run (h : Stage s term q chunks w t) (hpasses : Passes s q chunks) (heard : Bool)
    (turns : List Turn) (henough : w ≤ 2 * Turn.rounds heard turns - heard.toNat) :
    Stage s term q chunks 0 (t.run turns) := by
  -- A turn of the server lowers an even weight and one of the caller an odd one, so each round
  -- takes two off whatever else happens; `heard` says that half a round is done.
  induction turns generalizing w t heard with
  | nil =>
    obtain rfl : w = 0 := by
      rw [Turn.rounds] at henough
      omega
    exact h
  | cons turn turns ih =>
    rw [Talk.run, List.foldl_cons]
    cases turn with
    | server reader =>
      obtain ⟨w', hle, h', hless⟩ := h.server hpasses reader
      have hrounds : Turn.rounds heard (.server reader :: turns) = Turn.rounds true turns := by
        cases heard <;> rfl
      rw [hrounds] at henough
      refine ih h' true ?_
      rw [Bool.toNat_true]
      omega
    | caller =>
      obtain ⟨w', hle, h', hless⟩ := h.caller hpasses
      refine ih h' false ?_
      cases heard with
      | false => exact hle.trans henough
      | true =>
        rw [Turn.rounds, Bool.toNat_true] at henough
        rw [Bool.toNat_false]
        omega
    | others sources =>
      refine ih (h.others sources) heard ?_
      cases heard <;> exact henough

end Stage

/-- The chunks that an answer was told to give: the elements of a fixed array together, any other
fixed value by itself, or those of a source that nobody has used. -/
inductive Answer.Holds (sources : List Source) : Answer → List Chunk → Prop where
  | array (values : List Json) : Holds sources (.ofValue (.arr values)) [values]
  | value (v : Json) (h : ∀ values, v ≠ .arr values) : Holds sources (.ofValue v) [[v]]
  | source (id : SourceId) (chunks : List Chunk) (h : sources[id]? = some (.ofChunks chunks)) :
    Holds sources (.source id) chunks

theorem Answer.Holds.stocked {sources : List Source} {a : Answer} {chunks : List Chunk}
    (h : a.Holds sources chunks) : Stocked a.stock sources chunks := by
  cases h with
  | array values => rfl
  | value v hv =>
    cases v with
    | arr values => exact absurd rfl (hv values)
    | _ => rfl
  | source id chunks h => exact h

theorem Passes.exists_asking {s : Settings} {q : Query} {chunks : List Chunk}
    (h : Passes s q chunks) (htype : q.type = .start) :
    ∃ f, q.bytes = f.bytes ∧ f.token = q.token ∧ Asking f := by
  have haccepted := h.accepted
  cases hp : q.payload with
  | error e =>
    rw [Query.refusal?, hp] at haccepted
    cases haccepted
  | ok p =>
    exact ⟨⟨q.token, p⟩, Query.bytes_of_payload hp, rfl,
      asking_of_payload hp (.inl htype) h.depth (h.heard p hp)⟩

/-- A query that has been started waits for its server. -/
theorem stage_start {s : Settings} {term : Term} {q : Query} {stock : Stock}
    {sources : List Source} {chunks : List Chunk} (htype : q.type = .start)
    (hstock : Stocked stock sources chunks) (hpasses : Passes s q chunks) (handoff : Nat) :
    Stage s term q chunks (2 * chunks.length + 2 + Mode.waiting.delay)
      (Talk.start (.mocked (caller s term q 0 true .start) handoff stock) sources) := by
  obtain ⟨f, hbytes, htoken, hasking⟩ := hpasses.exists_asking htype
  refine .asked .waiting [] chunks handoff 0 stock f Mode.noConfusion rfl rfl ?_ hasking htoken
    hstock rfl rfl
  rw [← hbytes]
  exact List.append_nil _

/-- The connection of a query that a mock takes and does not answer with an error. -/
theorem begin_connects {m : Mock} {term : Term} {options : QueryOptions} {i : Nat} {e : Expectation}
    (htaker : m.taker? term options = some i) (he : m.expectations[i]? = some e)
    (herror : e.error = none) (hreply : options.isNoreply = false)
    (haccepted : (Query.start TokenSource.start.next term (m.effective options)).refusal?
      m.settings.frameLimit = none) :
    let c : Claim := ⟨term, m.effective options, e.answer, e.error, e.gate⟩
    m.begin term options =
        (.ok c, { m with expectations := m.expectations.modify i Expectation.use }) ∧
      c.connect m.settings = .ok (caller m.settings term
        (.start TokenSource.start.next term (m.effective options)) 0 true .start) := by
  intro c
  obtain ⟨e', he', hbegin⟩ := begin_taken htaker
  obtain rfl : e' = e := Option.some.inj (he'.symm.trans he)
  have hquery : c.query m.settings =
      .start TokenSource.start.next term (m.effective options) := by
    change Query.start _ term ((m.effective options).withDefaultDb _) = _
    rw [effective, QueryOptions.withDefaultDb_withDefaultDb]
  have hnoreply : c.options.isNoreply = false := by
    change (options.withDefaultDb _).isNoreply = false
    rw [QueryOptions.isNoreply_withDefaultDb, hreply]
  rw [← hquery] at haccepted
  refine ⟨hbegin, ?_⟩
  rw [Claim.connect_eq herror hnoreply haccepted, hquery]

/-- A query that a mock takes is answered with exactly what was configured: the caller that runs it
and asks for all values gets the chunks in order, when it and the server have had a turn each as
often as there are chunks, and twice more. It has asked for more once for each chunk and has asked
for no stop; its cursor is finished then and its connection closed. -/
theorem mocked_query_drains {m n : Mock} {term : Term} {options : QueryOptions} {i : Nat}
    {e : Expectation} {sources : List Source} {chunks : List Chunk} {turns : List Turn}
    (htaker : m.taker? term options = some i) (he : m.expectations[i]? = some e)
    (herror : e.error = none) (hreply : options.isNoreply = false)
    (hholds : e.answer.Holds sources chunks) (hsettings : n.settings = m.settings)
    (hpasses : Passes m.settings (.start TokenSource.start.next term (m.effective options)) chunks)
    (hturns : chunks.length + 2 ≤ Turn.rounds false turns) :
    ∃ claim connection, (m.begin term options).1 = .ok claim ∧
      (n.finish claim).1 = .ok connection ∧
      let line := Session.Line.mocked connection n.settings.handoff claim.answer.stock
      let t := (Talk.start line sources).run turns
      let token := TokenSource.start.next
      t.call = .inl (.values chunks.flatten) ∧
      t.line.connection.written = .start token term (m.effective options) ::
        List.replicate chunks.length (.bare token .continue) ∧
      t.line.connection.writer.link.delivered =
        t.line.connection.written.flatMap Query.bytes ∧
      t.line.connection.closed = true ∧
      ∃ k, t.line.connection.cursors = [k] ∧ k.inbox.isFinished = true := by
  obtain ⟨hbegin, hconnect⟩ := begin_connects htaker he herror hreply hpasses.accepted
  let q : Query := .start TokenSource.start.next term (m.effective options)
  refine ⟨_, caller m.settings term q 0 true .start, by rw [hbegin], ?_, ?_⟩
  · rw [finish, hsettings]
    exact hconnect
  · intro line t token
    have hstart : Stage m.settings term q chunks _ (Talk.start line sources) :=
      stage_start rfl hholds.stocked hpasses n.settings.handoff
    have hstage : Stage m.settings term q chunks 0 t := by
      refine hstart.run hpasses false turns ?_
      simp only [Mode.delay, Bool.toNat_false]
      omega
    obtain ⟨hconnection, hcall⟩ := hstage.ended rfl
    rw [hconnection]
    exact ⟨hcall, rfl, rfl, rfl, _, rfl, rfl⟩

/-- A source with three chunks, of which one is empty, and five turns of each side. -/
theorem mocked_query_drains_chunks :
    let table : Term := .op .table [.ofString "t"] []
    let one : Json := .ofUInt64 1
    let chunks : List Chunk := [[one, .null], [], [.str "x"]]
    let m : Mock := ⟨.default, [{ Expectation.start table .empty with answer := .source 0 }], []⟩
    let turns := (List.replicate 5 [Turn.caller, .server 0]).flatten ++ [.caller]
    ∃ claim connection, (m.begin table .empty).1 = .ok claim ∧
      (m.finish claim).1 = .ok connection ∧
      ((Talk.start (.mocked connection m.settings.handoff claim.answer.stock)
        [.ofChunks chunks]).run turns).call = .inl (.values [one, .null, .str "x"]) := by
  intro table one chunks m turns
  have htaker : m.taker? table .empty = some 0 := by decide +kernel
  have hpasses : Passes m.settings (.start TokenSource.start.next table (m.effective .empty))
      chunks := by
    refine ⟨by decide +kernel, ?_, by decide +kernel, ?_, by decide +kernel, by decide +kernel,
      by decide +kernel, by decide +kernel⟩
    · intro p hp
      obtain rfl := Except.ok.inj hp
      decide +kernel
    · simp [chunks, one, Json.FaithfulItems, Json.Faithful, Json.ofUInt64]
  have hholds : Answer.Holds [.ofChunks chunks] (.source 0) chunks := .source 0 chunks rfl
  have hturns : chunks.length + 2 ≤ Turn.rounds false turns := by decide +kernel
  obtain ⟨claim, connection, hbegin, hfinish, hcall, -⟩ := mocked_query_drains (n := m) htaker rfl
    rfl (by decide +kernel) hholds rfl hpasses hturns
  exact ⟨claim, connection, hbegin, hfinish, hcall⟩

end Mock
end Reql
