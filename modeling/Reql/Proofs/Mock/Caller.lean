import Reql.Mock.Basic
import Reql.Proofs.Connection.Draining
import Reql.Proofs.Connection.Outlet
import Reql.Proofs.Frame.Stream

/-! The connection of a mocked query, from its start to its end. -/
namespace Reql

namespace FrameReader

/-- A frame that arrives in one piece is read at once. -/
theorem receive_bytes {r : FrameReader} (hb : r.buffer = []) (hs : r.stopped = false) {f : Frame}
    (hf : f.payload.length ≤ r.limit.bytes) : r.receive f.bytes = ([.frame f], r) := by
  obtain ⟨limit, buffer, stopped⟩ := r
  obtain rfl : buffer = [] := hb
  obtain rfl : stopped = false := hs
  obtain ⟨frames, rest, hparse, htake⟩ := takeFrames_spec limit (Nat.le_refl f.bytes.length)
  have hleads : Frame.Leads limit f.bytes f [] := ⟨(List.append_nil _).symm, hf⟩
  obtain ⟨rfl, rfl⟩ := hparse.unique (.frame hleads (.nil limit))
  rw [if_neg (Frame.not_oversize_nil limit)] at htake
  simp only [receive, List.nil_append, htake, Bool.false_eq_true, if_false, List.map_cons,
    List.map_nil]

end FrameReader

/-- A default database is set once. -/
theorem QueryOptions.withDefaultDb_withDefaultDb (o : QueryOptions) (db : Option String) :
    (o.withDefaultDb db).withDefaultDb db = o.withDefaultDb db := by
  cases db with
  | none => rfl
  | some db =>
    cases hdb : o.contains "db" with
    | true => simp only [withDefaultDb, hdb, if_true]
    | false =>
      have hset : (o.setDb db).contains "db" = true := by
        simp [contains, Fields.contains, setDb, set]
      simp only [withDefaultDb, hdb, hset, Bool.false_eq_true, if_false, if_true]

/-- A working stream delivers a request at once, if it fits into a frame. -/
theorem Connection.write_of_works {c : Connection} {q : Query} (hw : c.writer.Works)
    (hb : c.writer.buffer = []) (hq : q.refusal? c.writer.limit = none) :
    c.write q =
      (none, { c with writer := c.writer.deliver q.bytes, written := c.written ++ [q] }) := by
  unfold Query.refusal? at hq
  cases hp : q.payload with
  | error e =>
    rw [hp] at hq
    cases hq
  | ok payload =>
    rw [hp, Option.map_eq_none_iff] at hq
    obtain ⟨hnone, -⟩ := FrameWriter.send_works hw hq
    have hsend : c.writer.send ⟨q.token, payload⟩ = (none, c.writer.deliver q.bytes) := by
      rw [Query.bytes_of_payload hp]
      rcases FrameWriter.send_of_flushed (fun _ => hb) ⟨q.token, payload⟩ with
        ⟨-, hsend⟩ | ⟨e, buffer, hsend, -⟩
      · exact hsend
      · rw [hsend] at hnone
        cases hnone
    simp only [write, hp, hsend]

theorem Connection.collectAll_waits {c c' : Connection} {id : CursorId}
    (h : c.next? id = (none, c')) (acc : List Json) :
    collectAll id 1 acc c = (.inr (.all acc), c') := by
  simp only [collectAll, h]

namespace Mock

/-- The requests of a mocked query after a number of requests for more. -/
def requests (q : Query) (n : Nat) : List Query :=
  q :: List.replicate n (.bare q.token .continue)

theorem requests_succ (q : Query) (n : Nat) :
    requests q (n + 1) = requests q n ++ [.bare q.token .continue] := by
  simp only [requests, List.replicate_succ', List.cons_append]

/-- What has been written when some requests have reached the other end. -/
def written (limit : FrameLimit) (qs : List Query) : FrameWriter :=
  ⟨limit, [], ⟨qs.flatMap Query.bytes, none, false⟩⟩

/-- The connection of a mocked query after a number of requests for more. -/
def caller (s : Settings) (term : Term) (q : Query) (n : Nat) (registered : Bool)
    (inbox : Inbox) : Connection where
  database := s.database
  tokens := TokenSource.start.take.2
  cursors := [⟨q.token, term, true, inbox, registered, true⟩]
  closed := false
  writeClosed := false
  writer := written s.frameLimit (requests q n)
  reader := .start s.frameLimit
  written := requests q n
  held := false

/-- The connection of a mocked query when all has been read. -/
def parted (s : Settings) (term : Term) (q : Query) (n : Nat) : Connection :=
  { caller s term q n false { Inbox.finished with closed := true } with
    closed := true
    writeClosed := true
    writer := ⟨s.frameLimit, [], ⟨(requests q n).flatMap Query.bytes, none, true⟩⟩ }

def batched (values : Chunk) : Inbox :=
  { Inbox.start with buffer := values, fetching := false }

variable {s : Settings} {term : Term} {q : Query} {n : Nat}

def Claim.query (c : Claim) (s : Settings) : Query :=
  .start TokenSource.start.next c.term (c.options.withDefaultDb s.database)

theorem Claim.connect_eq {c : Claim} (herror : c.error = none)
    (hreply : c.options.isNoreply = false)
    (hfits : (c.query s).refusal? s.frameLimit = none) :
    c.connect s = .ok (caller s c.term (c.query s) 0 true .start) := by
  have hwrite : ({ Connection.start s with tokens := TokenSource.start.take.2 } : Connection).write
      (c.query s) = (none, { Connection.start s with
        tokens := TokenSource.start.take.2
        writer := written s.frameLimit [c.query s]
        written := [c.query s] }) := by
    rw [Connection.write_of_works ⟨rfl, rfl⟩ rfl hfits]
    simp [Connection.start, FrameWriter.start, FrameWriter.deliver, Link.start, written]
  have hquery : (Connection.start s).query c.term c.options true = (.ok 0,
      { caller s c.term (c.query s) 0 true .start with held := true }) := by
    have hnoreply : (c.options.withDefaultDb s.database).isNoreply = false := by
      rw [QueryOptions.isNoreply_withDefaultDb, hreply]
    have hask : (Connection.start s).query c.term c.options true =
        (Connection.start s).ask c.term true fun token =>
          .start token c.term (c.options.withDefaultDb s.database) := by
      change (if (c.options.withDefaultDb s.database).isNoreply = true then _ else _) = _
      rw [hnoreply, if_neg Bool.false_ne_true]
      rfl
    rw [hask, Connection.ask_eq rfl]
    split
    next e d hfailed => cases hwrite.symm.trans hfailed
    next d hwritten =>
      obtain rfl := (Prod.mk.inj (hwrite.symm.trans hwritten)).2
      rfl
  simp only [connect, herror, hquery]
  rfl

/-- The answer to the latest request reaches the cursor. -/
theorem caller_receive {inbox : Inbox} {r : Response} (htoken : r.token = q.token)
    (hfits : r.encode.length ≤ s.frameLimit.bytes)
    (hdecode : Response.decode r.token r.encode = .ok r) :
    (caller s term q n true inbox).receive (Frame.mk r.token r.encode).bytes =
      caller s term q n r.body.isBatch (inbox.deliver r) := by
  have hcursor : Cursor.receive ⟨r.token, r.encode⟩ ⟨q.token, term, true, inbox, true, true⟩ =
      ⟨q.token, term, true, inbox.deliver r, r.body.isBatch, true⟩ := by
    rw [Cursor.receive, if_pos ⟨rfl, htoken.symm⟩, hdecode]
  have hroute : (caller s term q n true inbox).route ⟨r.token, r.encode⟩ =
      caller s term q n r.body.isBatch (inbox.deliver r) := by
    simp only [Connection.route, caller, List.map_cons, List.map_nil, hcursor]
  have hread : (caller s term q n true inbox).reader.receive (Frame.mk r.token r.encode).bytes =
      ([.frame ⟨r.token, r.encode⟩], (caller s term q n true inbox).reader) :=
    FrameReader.receive_bytes rfl rfl hfits
  have hopen : ¬(caller s term q n true inbox).closed = true := Bool.false_ne_true
  rw [Connection.receive, Connection.read, if_neg hopen, hread]
  exact hroute

theorem caller_receive_nil {registered : Bool} {inbox : Inbox} :
    (caller s term q n registered inbox).receive [] = caller s term q n registered inbox := by
  rfl

theorem caller_run_waits : (caller s term q n true .start).advance 0 .run =
    (.inr .run, caller s term q n true .start) := by
  rfl

theorem caller_run_ready (values : Chunk) :
    (caller s term q n true (batched values)).advance 0 .run =
      (.inl .ready, caller s term q n true (batched values)) := by
  cases values <;> rfl

theorem caller_run_over : (caller s term q n false .finished).advance 0 .run =
    (.inl .ready, caller s term q n false .finished) := by
  rfl

theorem caller_all_waits (acc : List Json) : (caller s term q n true .start).advance 0 (.all acc) =
    (.inr (.all acc), caller s term q n true .start) := by
  rfl

theorem caller_all_over (acc : List Json) :
    (caller s term q n false .finished).advance 0 (.all acc) =
      (.inl (.values acc.reverse), parted s term q n) := by
  have hderegister : (caller s term q n false { Inbox.finished with closed := true }).deregister
      q.token = caller s term q n false { Inbox.finished with closed := true } := by
    simp [Connection.deregister, Cursor.deregister, caller]
  have hrelease : (caller s term q n false { Inbox.finished with closed := true }).release =
      parted s term q n := rfl
  change (Sum.inl (Outcome.values acc.reverse),
    ((caller s term q n false { Inbox.finished with closed := true }).deregister
      q.token).release) = _
  rw [hderegister, hrelease]

theorem caller_all_batch (values acc : List Json)
    (hfits : (Query.bare q.token .continue).refusal? s.frameLimit = none) :
    (caller s term q n true (batched values)).advance 0 (.all acc) =
      (.inr (.all (values.reverse ++ acc)), caller s term q (n + 1) true .start) := by
  have hcursor : (caller s term q n true (batched values)).cursors[0]? =
    some ⟨q.token, term, true, batched values, true, true⟩ := rfl
  have hread := Connection.collectAll_buffer 1 hcursor acc
  have hwrite : (caller s term q n true .start).write (.bare q.token .continue) =
      (none, caller s term q (n + 1) true .start) := by
    rw [Connection.write_of_works ⟨rfl, rfl⟩ rfl hfits]
    simp [caller, requests_succ, written, FrameWriter.deliver]
  have hcontinue : (caller s term q n true .start).continueQuery q.token =
      (none, caller s term q (n + 1) true .start) := by
    have hregistered : (caller s term q n true .start).isRegistered q.token = true := by
      simp [Connection.isRegistered, caller]
    have hopen : ¬(caller s term q n true .start).closed = true := Bool.false_ne_true
    rw [Connection.continueQuery, if_neg hopen, if_pos hregistered, hwrite]
  let emptied : Inbox := { batched values with buffer := [] }
  have hnext : (caller s term q n true emptied).next? 0 =
      (none, caller s term q (n + 1) true .start) := by
    have hcursor : (caller s term q n true emptied).cursors[0]? =
      some ⟨q.token, term, true, emptied, true, true⟩ := rfl
    have hstep : emptied.step = (.fetch, .start) := rfl
    have hfetch : (caller s term q n true emptied).modifyInbox 0 (fun _ => .start) =
      caller s term q n true .start := rfl
    simp only [Connection.next?, hcursor, hstep, hfetch, hcontinue]
  rw [Connection.advance, Connection.buffered_eq hcursor, hread]
  exact Connection.collectAll_waits hnext _

end Mock
end Reql
