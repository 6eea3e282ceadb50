import Reql.Proofs.Connection.Output
import Reql.Proofs.Connection.Requests

/-! Reading a query to its end, while a server answers each request once. -/
namespace Reql

def Frame.values (f : Frame) : List Json :=
  match Response.decode f.token f.payload with
  | .ok r => Inbox.valuesOf r.body
  | .error _ => []

def Frame.failure? (f : Frame) : Option ClientError :=
  match Response.decode f.token f.payload with
  | .ok r => Inbox.errorOf r.body
  | .error e => some (.ofProtocol e)

/-- What a call for all values gives when the last frame comes after some values. -/
def Frame.outcome (f : Frame) (values : List Json) : Outcome :=
  match f.failure? with
  | none => .values (values ++ f.values)
  | some e => .failed e

namespace Connection

open Cursor (Step)

/-- Goes on with a call each time that a frame arrives, until the call is done. -/
def drain (id : CursorId) : List Frame → Call → Connection → (Outcome ⊕ Call) × Connection
  | [], call, c => (.inr call, c)
  | f :: fs, call, c =>
    match (c.route f).advance id call with
    | (.inr call, c) => drain id fs call c
    | r => r

variable {c : Connection} {id : CursorId} {k : Cursor} {t : Token}

theorem modifyInbox_modifyInbox (c : Connection) (id : CursorId) (f g : Inbox → Inbox) :
    (c.modifyInbox id f).modifyInbox id g = c.modifyInbox id (g ∘ f) := by
  simp only [modifyInbox, List.modify_modify_eq]
  rfl

theorem modifyInbox_eq_self (hk : c.cursors[id]? = some k) :
    c.modifyInbox id (fun _ => k.inbox) = c := by
  have hcursors : c.cursors.modify id (fun l => { l with inbox := k.inbox }) = c.cursors := by
    refine List.ext_getElem? fun i => ?_
    by_cases hi : id = i
    · rw [← hi, List.getElem?_modify_eq, hk]
      rfl
    · rw [List.getElem?_modify_ne _ _ hi]
  rw [modifyInbox, hcursors]

theorem next?_value {v : Json} {rest : List Json} (hk : c.cursors[id]? = some k)
    (hb : k.inbox.buffer = v :: rest) : c.next? id =
      (some (.ok (some v)), c.modifyInbox id fun _ => { k.inbox with buffer := rest }) := by
  have hstep : k.inbox.step = (.value v, { k.inbox with buffer := rest }) :=
    Inbox.step_eq_value.mpr ⟨rest, hb, rfl⟩
  simp only [next?, hk, hstep]

/-- All that is buffered is read at once. -/
theorem collectAll_buffer (n : Nat) (hk : c.cursors[id]? = some k) (acc : List Json) :
    collectAll id (k.inbox.buffer.length + n) acc c =
      collectAll id n (k.inbox.buffer.reverse ++ acc)
        (c.modifyInbox id fun _ => { k.inbox with buffer := [] }) := by
  generalize hb : k.inbox.buffer = vs
  induction vs generalizing c k acc with
  | nil =>
    have hself : ({ k.inbox with buffer := [] } : Inbox) = k.inbox := by rw [← hb]
    rw [hself, modifyInbox_eq_self hk, List.length_nil, Nat.zero_add]
    rfl
  | cons v vs ih =>
    have hread := getElem?_modifyInbox hk fun _ => { k.inbox with buffer := vs }
    have hrest := ih hread (v :: acc) rfl
    rw [modifyInbox_modifyInbox] at hrest
    rw [List.length_cons, Nat.add_right_comm, collectAll, next?_value hk hb]
    refine hrest.trans ?_
    rw [List.reverse_cons, List.append_assoc]
    rfl

/-- A cursor is read as it should be: the connection is open and can write, and the cursor is
registered and has nothing to hand out. -/
structure Reading (t : Token) (id : CursorId) (c : Connection) : Prop where
  cursor : ∃ k, c.cursors[id]? = some k ∧ k.token = t ∧ k.registered = true ∧ k.Sound ∧
    k.inbox.buffer = []
  opened : c.closed = false
  works : c.writer.Works
  accepted : (Query.bare t .continue).refusal? c.writer.limit = none

theorem buffered_eq (hk : c.cursors[id]? = some k) : c.buffered id = k.inbox.buffer.length := by
  rw [buffered, hk]
  rfl

/-- What is read when a frame has arrived for a cursor that had nothing to hand out. -/
theorem advance_all_route {f : Frame} {s : Inbox} {b : Bool} (acc : List Json)
    (hk : c.cursors[id]? = some k)
    (hreceive : k.receive f = { k with registered := b, inbox := s }) :
    (c.route f).advance id (.all acc) =
      collectAll id 1 (s.buffer.reverse ++ acc)
        ((c.route f).modifyInbox id fun _ => { s with buffer := [] }) := by
  have hk' : (c.route f).cursors[id]? = some { k with registered := b, inbox := s } :=
    hreceive ▸ getElem?_route f hk
  rw [advance, buffered_eq hk', collectAll_buffer 1 hk']

theorem next?_fetch {s : Inbox} (hk : c.cursors[id]? = some k) (hr : k.registered = true)
    (ho : c.closed = false) (hw : c.writer.Works)
    (ha : (Query.bare k.token .continue).refusal? c.writer.limit = none)
    (hstep : k.inbox.step = (.fetch, s)) : ∃ w : FrameWriter, w.limit = c.writer.limit ∧ w.Works ∧
      c.next? id = (none, { c.modifyInbox id fun _ => s with
        writer := w, written := c.written ++ [.bare k.token .continue] }) := by
  have hread := getElem?_modifyInbox hk fun _ => s
  have hwaits : (c.modifyInbox id fun _ => s).isRegistered k.token = true :=
    List.any_eq_true.mpr ⟨_, List.mem_of_getElem? hread, by simp [hr]⟩
  have hopen : (c.modifyInbox id fun _ => s).closed = false := ho
  obtain ⟨w, hlimit, hworks, hwrite⟩ := write_works (c := c.modifyInbox id fun _ => s) hw ha
  refine ⟨w, hlimit, hworks, ?_⟩
  simp only [next?, hk, hstep, continueQuery, hopen, hwaits, Bool.false_eq_true, if_false, if_true,
    hwrite]
  rfl

/-- A cursor that has handed everything out asks for more. -/
theorem collectAll_fetch (hk : c.cursors[id]? = some k) (hr : k.registered = true) (hs : k.Sound)
    (hb : k.inbox.buffer = []) (hf : k.inbox.fetching = false) (ho : c.closed = false)
    (hw : c.writer.Works) (ha : (Query.bare k.token .continue).refusal? c.writer.limit = none)
    (acc : List Json) : ∃ c', collectAll id 1 acc c = (.inr (.all acc), c') ∧
      Reading k.token id c' ∧ c'.written = c.written ++ [.bare k.token .continue] := by
  obtain ⟨hc, hd⟩ := Inbox.isRunning_iff.mp (hs hr).1
  have hstep : k.inbox.step = (.fetch, { k.inbox with fetching := true }) :=
    Inbox.step_eq_fetch.mpr ⟨hb, (hs hr).2, hd, hc, hf, rfl⟩
  obtain ⟨w, hlimit, hworks, hnext⟩ := next?_fetch hk hr ho hw ha hstep
  have hread := getElem?_modifyInbox hk fun _ => { k.inbox with fetching := true }
  rw [collectAll, hnext]
  refine ⟨_, rfl, ⟨⟨{ k with inbox := { k.inbox with fetching := true } }, hread, rfl, hr, hs, hb⟩,
    ho, hworks, ?_⟩, rfl⟩
  change (Query.bare k.token .continue).refusal? w.limit = none
  rw [hlimit]
  exact ha

/-- A cursor that has handed everything out and gets no more hands out its error or the end. -/
theorem collectAll_done (hk : c.cursors[id]? = some k) (hb : k.inbox.buffer = [])
    (hd : k.inbox.serverDone = true) (acc : List Json) : ∃ c', collectAll id 1 acc c =
      (.inl (match k.inbox.error with
        | none => .values acc.reverse
        | some e => .failed e), c') ∧ c'.written = c.written := by
  cases he : k.inbox.error with
  | none =>
    have hstep : k.inbox.step = (.ended, { k.inbox with closed := true }) :=
      Inbox.step_eq_ended.mpr ⟨hb, he, Or.inl hd, rfl⟩
    simp only [collectAll, next?, hk, hstep]
    exact ⟨_, rfl, (finish_quiet _ id).written⟩
  | some e =>
    have hstep : k.inbox.step = (.failed e, { k.inbox with error := none, closed := true }) :=
      Inbox.step_eq_failed.mpr ⟨hb, he, rfl⟩
    simp only [collectAll, next?, hk, hstep]
    exact ⟨_, rfl, (finish_quiet _ id).written⟩

/-- After a batch its values are read, and more is asked for. -/
theorem Reading.batch (h : Reading t id c) {f : Frame} (ht : f.token = t)
    (hf : f.isBatch = true) (acc : List Json) : ∃ c', (c.route f).advance id (.all acc) =
      (.inr (.all (f.values.reverse ++ acc)), c') ∧ Reading t id c' ∧
      c'.written = c.written ++ [.bare t .continue] := by
  obtain ⟨k, hk, rfl, hr, hs, hb⟩ := h.cursor
  unfold Frame.isBatch at hf
  split at hf
  next r hdec =>
    have hreceive : k.receive f = { k with registered := true, inbox := k.inbox.deliver r } := by
      rw [Cursor.receive, if_pos ⟨hr, ht.symm⟩, hdec, ← hf]
    have hstep : Step k (.answered r)
        { k with registered := true, inbox := k.inbox.deliver r } := by
      rw [← hf]
      exact .answered r hr
    have hvalues : (k.inbox.deliver r).buffer = f.values := by
      rw [hs.deliver_eq hr, hb, Frame.values, hdec]
      rfl
    have hroute := getElem?_route f hk
    rw [hreceive] at hroute
    have hread := getElem?_modifyInbox hroute fun _ => { k.inbox.deliver r with buffer := [] }
    rw [advance_all_route acc hk hreceive, hvalues]
    refine collectAll_fetch hread rfl (fun hr' => hstep.sound hs hr') rfl ?_ h.opened h.works
      h.accepted _
    rw [hs.deliver_eq hr]
  · cases hf

/-- After the last frame what is left is read, and the call is done. -/
theorem Reading.final (h : Reading t id c) {f : Frame} (ht : f.token = t)
    (hf : f.isBatch = false) (acc : List Json) : ∃ c', (c.route f).advance id (.all acc) =
      (.inl (f.outcome acc.reverse), c') ∧ c'.written = c.written := by
  obtain ⟨k, hk, rfl, hr, hs, hb⟩ := h.cursor
  obtain ⟨hc, hd⟩ := Inbox.isRunning_iff.mp (hs hr).1
  obtain ⟨s, hreceive, hbuffer, hdone, herror⟩ : ∃ s : Inbox,
      k.receive f = { k with registered := false, inbox := s } ∧ s.buffer = f.values ∧
        s.serverDone = true ∧ s.error = f.failure? := by
    unfold Frame.isBatch at hf
    unfold Frame.values Frame.failure?
    rw [Cursor.receive, if_pos ⟨hr, ht.symm⟩]
    cases hdec : Response.decode f.token f.payload with
    | ok r =>
      rw [hdec] at hf
      refine ⟨_, by rw [← hf], ?_⟩
      rw [hs.deliver_eq hr, hb]
      exact ⟨rfl, by simp [hf], rfl⟩
    | error e =>
      refine ⟨_, rfl, ?_⟩
      simp [Inbox.fail, hc, hd, hb]
  have hroute := getElem?_route f hk
  rw [hreceive] at hroute
  have hread := getElem?_modifyInbox hroute fun _ => { s with buffer := [] }
  obtain ⟨c', hc', hwritten⟩ := collectAll_done hread rfl hdone (s.buffer.reverse ++ acc)
  rw [advance_all_route acc hk hreceive, hc']
  refine ⟨c', ?_, hwritten⟩
  rw [herror, Frame.outcome, hbuffer, List.reverse_append, List.reverse_reverse]

/-- A query that is answered by batches and then by a last frame gives all values, or the failure
that the last frame brings; and more is asked for once for each batch. -/
theorem Reading.drain (h : Reading t id c) {bs : List Frame} {g : Frame}
    (hbs : ∀ f ∈ bs, f.token = t ∧ f.isBatch = true) (hgt : g.token = t)
    (hg : g.isBatch = false) (acc : List Json) :
    ∃ c', c.drain id (bs ++ [g]) (.all acc) =
      (.inl (g.outcome (acc.reverse ++ bs.flatMap Frame.values)), c') ∧
      c'.written = c.written ++ List.replicate bs.length (.bare t .continue) := by
  induction bs generalizing c acc with
  | nil =>
    obtain ⟨c', hc', hw⟩ := h.final hgt hg acc
    rw [List.nil_append, Connection.drain, hc']
    refine ⟨c', ?_, ?_⟩
    · rw [List.flatMap_nil, List.append_nil]
    · rw [hw]
      exact (List.append_nil _).symm
  | cons f bs ih =>
    obtain ⟨hft, hfb⟩ := hbs f List.mem_cons_self
    obtain ⟨d, hd, hreading, hw⟩ := h.batch hft hfb acc
    obtain ⟨c', hc', hw'⟩ := ih hreading (fun f' hf' => hbs f' (List.mem_cons_of_mem _ hf'))
      (f.values.reverse ++ acc)
    rw [List.cons_append, Connection.drain, hd]
    refine ⟨c', hc'.trans ?_, ?_⟩
    · rw [List.reverse_append, List.reverse_reverse, List.flatMap_cons, List.append_assoc]
    · rw [hw', hw, List.append_assoc, List.length_cons, List.replicate_succ]
      rfl

/-- A query that has just been asked can be read. -/
theorem reading_of_query {c' : Connection} {term : Term} {options : QueryOptions}
    {exclusive : Bool} (hq : c.query term options exclusive = (.ok id, c'))
    (hreply : options.isNoreply = false) (hw : c'.writer.Works) :
    Reading c.tokens.next id c' := by
  obtain ⟨⟨k, hk, hnew⟩, ho, hlimit, haccepted⟩ := query_ok hq
  have hinbox : k.inbox = .start := by rw [hnew.inbox, hreply]; rfl
  have hregistered : k.registered = true := by rw [hnew.registered, hreply]; rfl
  have hbuffer : k.inbox.buffer = [] := by rw [hinbox]; rfl
  refine ⟨⟨k, hk, hnew.token, hregistered, hnew.sound, hbuffer⟩, ho, hw, ?_⟩
  rw [hlimit]
  exact Query.refusal?_continue haccepted

end Connection
end Reql
