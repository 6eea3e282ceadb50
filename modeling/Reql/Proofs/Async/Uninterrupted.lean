import Reql.Proofs.Async.Shape
import Reql.Proofs.Connection.Registering

/-! Computations that nothing interrupts, and what comes of closing a connection and of writing a
request when nothing happens between their sections. -/
namespace Reql.Async

namespace Store

/-- What still waits in the buffer of the writer is never written. -/
def Settled (s : Store) : Prop :=
  s.accepted = [] ∨ s.conn.writer.buffer ≠ [] ∧ ¬s.conn.writer.Works

variable {s : Store} {w : FrameWriter}

theorem setWriter_eq (h : w.buffer = [] → s.accepted = []) :
    s.setWriter w = { s with conn := { s.conn with writer := w } } := by
  unfold setWriter
  by_cases hw : w.buffer = []
  · simp [hw, h hw]
  · rw [if_neg (by simpa using hw)]

theorem Settled.setWriter (h : s.Settled) (hw : s.accepted = [] ∨ w = s.conn.writer) :
    s.setWriter w = { s with conn := { s.conn with writer := w } } ∧ (s.setWriter w).Settled := by
  have hempty (hb : w.buffer = []) : s.accepted = [] := by
    rcases hw with hw | rfl
    · exact hw
    · exact h.resolve_right fun hstuck => hstuck.1 hb
  rw [setWriter_eq hempty]
  refine ⟨rfl, ?_⟩
  rcases hw with hw | rfl
  · exact .inl hw
  · exact h

/-- A stream on which nothing can be written leaves the writer as it is. -/
theorem Settled.flush (h : s.Settled) :
    s.accepted = [] ∨ ∃ e, s.conn.writer.flush = (some e, s.conn.writer) :=
  h.imp_right fun hstuck => FrameWriter.flush_eq_of_not_works hstuck.2 hstuck.1

theorem Settled.makeRoom (h : s.Settled) :
    s.accepted = [] ∨ s.conn.writer.makeRoom.2 = s.conn.writer := by
  refine h.flush.imp_right ?_
  rintro ⟨e, he⟩
  unfold FrameWriter.makeRoom
  split
  · rfl
  · rw [he]

theorem Settled.close (h : s.Settled) :
    s.accepted = [] ∨ s.conn.writer.close.2 = s.conn.writer := by
  refine h.flush.imp_right ?_
  rintro ⟨e, he⟩
  rw [FrameWriter.close, he]

end Store

/-- A computation that nothing interrupts: the connection, what is left to do, the computations that
have been started by it and its reply. -/
structure Thread where
  store : Store
  todo : List Point
  started : List Task
  reply : Option Connection.Reply

namespace Thread

/-- The computation when it has carried a section out. -/
def carry (x : Thread) (p : Point) (rest : List Point) (pick : Nat) : Thread :=
  let t := p.exec true pick x.store
  { store := t.store
    todo := t.next ++ rest
    started := x.started ++ if t.spawned.isEmpty then [] else [⟨none, true, t.spawned, none⟩]
    reply := t.reply.or x.reply }

/-- Whatever is picked, a computation comes to have a property by this many sections. -/
inductive Comes (P : Thread → Prop) : Nat → Thread → Prop where
  | here {x : Thread} (h : P x) : Comes P 0 x
  | next {x : Thread} {p : Point} {rest : List Point} {n : Nat} (h : x.todo = p :: rest)
      (hnext : ∀ pick, Comes P n (x.carry p rest pick)) : Comes P (n + 1) x

variable {P Q : Thread → Prop} {m n : Nat} {x : Thread}

theorem Comes.trans (h : Comes P m x) (hPQ : ∀ y, P y → Comes Q n y) : Comes Q (m + n) x := by
  induction h with
  | here h =>
    rw [Nat.zero_add]
    exact hPQ _ h
  | next h _ ih =>
    rw [Nat.add_right_comm]
    exact .next h ih

/-- Where a computation stands, whatever waits in the buffer of the writer. -/
structure Stands (x : Thread) (c : Connection) (ps : List Point) (ts : List Task)
    (r : Option Connection.Reply) : Prop where
  conn : x.store.conn = c
  settled : x.store.Settled
  todo : x.todo = ps
  started : x.started = ts
  reply : x.reply = r

end Thread

open Thread (Comes Stands)

/-- A computation goes on from `ps` to `ps'`, and the connection becomes `c'`. -/
def Goes (c : Connection) (ps : List Point) (c' : Connection) (ps' : List Point) : Prop :=
  ∃ n, ∀ (x : Thread) ts r, x.Stands c ps ts r → x.Comes (·.Stands c' ps' ts r) n

/-- A computation comes to its end with a reply, and has started `ts`. -/
def Ends (c : Connection) (ps : List Point) (c' : Connection) (ts : List Task)
    (r : Connection.Reply) : Prop :=
  ∃ n, ∀ (x : Thread) ts' r', x.Stands c ps ts' r' →
    x.Comes (·.Stands c' [] (ts' ++ ts) (some r)) n

/-- A computation comes to its end, whatever it replies. -/
def Finishes (c : Connection) (ps : List Point) (c' : Connection) : Prop :=
  ∃ n, ∀ (x : Thread) ts r, x.Stands c ps ts r → x.Comes (fun y => ∃ r', y.Stands c' [] ts r') n

/-- A computation comes to its end with a reply, and then the one that it has started. -/
def Carried (c : Connection) (ps : List Point) (c' : Connection) (r : Connection.Reply) : Prop :=
  Ends c ps c' [] r ∨
    ∃ d p, p.hasWriter = false ∧ Ends c ps d [⟨none, true, [p], none⟩] r ∧ Finishes d [p] c'

variable {c c' c'' : Connection} {ps ps' ps'' rest : List Point} {p : Point} {ts : List Task}
  {r : Connection.Reply} {t : Token} {e : ClientError}

theorem Goes.refl (c : Connection) (ps : List Point) : Goes c ps c ps :=
  ⟨0, fun _ _ _ hx => .here hx⟩

theorem Goes.trans (h : Goes c ps c' ps') (h' : Goes c' ps' c'' ps'') : Goes c ps c'' ps'' := by
  obtain ⟨m, h⟩ := h
  obtain ⟨n, h'⟩ := h'
  exact ⟨m + n, fun x ts r hx => (h x ts r hx).trans fun y hy => h' y ts r hy⟩

theorem Goes.ends (h : Goes c ps c' ps') (h' : Ends c' ps' c'' ts r) : Ends c ps c'' ts r := by
  obtain ⟨m, h⟩ := h
  obtain ⟨n, h'⟩ := h'
  exact ⟨m + n, fun x ts' r' hx => (h x ts' r' hx).trans fun y hy => h' y ts' r' hy⟩

theorem Goes.finishes (h : Goes c ps c' []) : Finishes c ps c' := by
  obtain ⟨n, h⟩ := h
  exact ⟨n + 0, fun x ts r hx => (h x ts r hx).trans fun y hy => .here ⟨r, hy⟩⟩

theorem Ends.finishes (h : Ends c ps c' [] r) : Finishes c ps c' := by
  obtain ⟨n, h⟩ := h
  refine ⟨n + 0, fun x ts r' hx => (h x ts r' hx).trans fun y hy => .here ⟨some r, ?_⟩⟩
  rwa [List.append_nil] at hy

theorem Goes.carried (h : Goes c ps c' ps') (h' : Carried c' ps' c'' r) : Carried c ps c'' r := by
  rcases h' with h' | ⟨d, p, hp, h', hfin⟩
  · exact .inl (h.ends h')
  · exact .inr ⟨d, p, hp, h.ends h', hfin⟩

/-- A section that leaves the writer alone. -/
theorem goes_change (ps : List Point) (hw : c'.writer = c.writer)
    (h : ∀ s pick, s.conn = c → p.exec true pick s = s.change c' ps) :
    Goes c (p :: rest) c' (ps ++ rest) := by
  refine ⟨1, fun x ts r hx => .next hx.todo fun pick => .here ?_⟩
  have hexec := h x.store pick hx.conn
  refine ⟨?_, ?_, ?_, ?_, ?_⟩
  · rw [Thread.carry, hexec]
    rfl
  · have hsettled := hx.settled
    rw [Store.Settled, hx.conn, ← hw] at hsettled
    rw [Thread.carry, hexec]
    exact hsettled
  · rw [Thread.carry, hexec]
    rfl
  · rw [Thread.carry, hexec]
    exact (List.append_nil _).trans hx.started
  · rw [Thread.carry, hexec]
    exact hx.reply

theorem goes_pass (ps : List Point) (h : ∀ s pick, s.conn = c → p.exec true pick s = s.pass ps) :
    Goes c (p :: rest) c (ps ++ rest) := by
  refine goes_change ps rfl fun s pick hs => ?_
  rw [h s pick hs, ← hs]
  rfl

/-- A section of the one who has the writer. -/
theorem goes_writer {w : FrameWriter} (ps : List Point)
    (hw : ∀ s : Store, s.conn = c → s.Settled → s.accepted = [] ∨ w = s.conn.writer)
    (h : ∀ s pick, s.conn = c → p.exec true pick s = (s.setWriter w).pass ps) :
    Goes c (p :: rest) { c with writer := w } (ps ++ rest) := by
  refine ⟨1, fun x ts r hx => .next hx.todo fun pick => .here ?_⟩
  obtain ⟨hstore, hsettled⟩ := hx.settled.setWriter (hw _ hx.conn hx.settled)
  rw [Thread.carry, h x.store pick hx.conn]
  refine ⟨?_, hsettled, rfl, (List.append_nil _).trans hx.started, hx.reply⟩
  rw [← hx.conn]
  exact congrArg Store.conn hstore

/-- A last section, with the reply. -/
theorem ends_answer (hw : c'.writer = c.writer)
    (h : ∀ s pick, s.conn = c → p.exec true pick s = (s.change c' []).answer r) :
    Ends c [p] c' [] r := by
  refine ⟨1, fun x ts r' hx => .next hx.todo fun pick => .here ?_⟩
  have hexec := h x.store pick hx.conn
  refine ⟨?_, ?_, ?_, ?_, ?_⟩
  · rw [Thread.carry, hexec]
    rfl
  · have hsettled := hx.settled
    rw [Store.Settled, hx.conn, ← hw] at hsettled
    rw [Thread.carry, hexec]
    exact hsettled
  · rw [Thread.carry, hexec]
    rfl
  · rw [Thread.carry, hexec]
    exact congrArg (· ++ []) hx.started
  · rw [Thread.carry, hexec]
    rfl

theorem ends_reply (c : Connection) (r : Connection.Reply) : Ends c [.reply r] c [] r :=
  ends_answer rfl fun s pick hs => by rw [← hs]; rfl

theorem carried_reply (c : Connection) (r : Connection.Reply) : Carried c [.reply r] c r :=
  .inl (ends_reply c r)

/-- A section that starts a computation. -/
theorem ends_spawn {q : Point}
    (h : ∀ s pick, p.exec true pick s = { store := s, next := [], spawned := [q] })
    (hrest : Ends c rest c' [] r) : Ends c (p :: rest) c' [⟨none, true, [q], none⟩] r := by
  obtain ⟨n, hrest⟩ := hrest
  refine ⟨n + 1, fun x ts r' hx => .next hx.todo fun pick => ?_⟩
  have hstands : (x.carry p rest pick).Stands c rest (ts ++ [⟨none, true, [q], none⟩]) r' := by
    rw [Thread.carry, h]
    exact ⟨hx.conn, hx.settled, rfl, congrArg (· ++ _) hx.started, hx.reply⟩
  have hend := hrest _ _ _ hstands
  rwa [List.append_nil] at hend

/-! ### Closing a connection -/

section Closing

variable {cs : List Cursor} {i : CursorId} {ids : List CursorId}

theorem modify_right_comm (f : Cursor → Cursor) :
    RightCommutative fun (cs : List Cursor) i => cs.modify i f where
  right_comm cs i j := by
    refine List.ext_getElem? fun l => ?_
    simp only [List.getElem?_modify]
    cases cs[l]? with
    | none => simp
    | some k => by_cases hi : i = l <;> by_cases hj : j = l <;> simp [hi, hj]

theorem getElem?_foldl_modify (f : Cursor → Cursor) (hids : ids.Nodup) (l : CursorId) :
    (ids.foldl (fun cs i => cs.modify i f) cs)[l]? =
      if l ∈ ids then cs[l]?.map f else cs[l]? := by
  induction ids generalizing cs with
  | nil => simp
  | cons i ids ih =>
    obtain ⟨hi, hids⟩ := List.nodup_cons.mp hids
    rw [List.foldl_cons, ih hids, List.getElem?_modify]
    by_cases hl : l = i
    · subst hl
      simp [hi]
    · have hne : ¬i = l := fun h => hl h.symm
      simp only [List.mem_cons, hl, false_or, if_neg hne]
      simp

/-- A table that is given up is drained, and then those that were in it are failed. -/
theorem foldl_fail_eq (cs : List Cursor) (e : ClientError) :
    (((List.range cs.length).filter fun i => cs[i]?.any (·.registered)).foldl
      (fun cs i => cs.modify i fun k => { k with inbox := k.inbox.fail e })
      (cs.map fun k => { k with registered := false })) = cs.map (·.lose e) := by
  refine List.ext_getElem? fun l => ?_
  rw [getElem?_foldl_modify _ (List.nodup_range.filter _)]
  simp only [List.mem_filter, List.mem_range, List.getElem?_map]
  cases hl : cs[l]? with
  | none => simp
  | some k =>
    have hlt := (List.getElem?_eq_some_iff.mp hl).choose
    cases hr : k.registered with
    | true => simp [hlt, hr, Cursor.lose]
    | false =>
      have hsame : { k with registered := false } = k := by rw [← hr]
      simp [hr, hsame, Cursor.lose]

/-- The inboxes are failed in any order. -/
theorem goes_fail (c : Connection) (e : ClientError) (ids : List CursorId) (rest : List Point) :
    let cs := ids.foldl
      (fun cs i => cs.modify i fun k => { k with inbox := k.inbox.fail e }) c.cursors
    Goes c (.fail e ids :: rest) { c with cursors := cs } rest := by
  refine ⟨ids.length + 1, ?_⟩
  induction hn : ids.length generalizing c ids with
  | zero =>
    obtain rfl := List.length_eq_zero_iff.mp hn
    intro x ts r hx
    refine .next hx.todo fun pick => .here ?_
    exact ⟨hx.conn, hx.settled, rfl, (List.append_nil _).trans hx.started, hx.reply⟩
  | succ n ih =>
    obtain ⟨i, is, rfl⟩ := List.exists_cons_of_length_eq_add_one hn
    intro x ts r hx
    refine .next hx.todo fun pick => ?_
    let next := (i :: is)[pick]?.getD i
    have hmem : next ∈ i :: is := by
      cases hpick : (i :: is)[pick]? with
      | none => exact (congrArg (·.getD i) hpick : next = i) ▸ List.mem_cons_self
      | some j =>
        exact (congrArg (·.getD i) hpick : next = j) ▸ List.mem_of_getElem? hpick
    have hlength : ((i :: is).erase next).length = n := by
      rw [List.length_erase_of_mem hmem, hn]
      rfl
    have hstands : (x.carry (.fail e (i :: is)) rest pick).Stands (c.modifyInbox next (·.fail e))
        (.fail e ((i :: is).erase next) :: rest) ts r :=
      ⟨congrArg (·.modifyInbox next (·.fail e)) hx.conn, hx.settled, rfl,
        (List.append_nil _).trans hx.started, hx.reply⟩
    have hcomm := modify_right_comm fun k => { k with inbox := k.inbox.fail e }
    rw [(List.perm_cons_erase hmem).foldl_eq c.cursors]
    exact ih _ _ hlength _ ts r hstands

def sequel (c : Connection) : Closing → List Point
  | .leave => []
  | .hangUp => [.hangUp]
  | .release => if c.closed then [] else [.spawnHangUp]

theorem goes_shutDown (c : Connection) (e : ClientError) (closing : Closing) (rest : List Point) :
    Goes c (.shutDown e closing :: rest) (c.shutDown e) (sequel c closing ++ rest) := by
  by_cases hc : c.closed = true
  · rw [Connection.shutDown, if_pos hc]
    refine goes_pass _ fun s pick hs => ?_
    simp only [Point.exec, hs, if_pos hc]
    cases closing <;> simp [sequel, hc]
  · rw [Connection.shutDown, if_neg hc]
    let c₁ : Connection := { c with closed := true }
    let c₂ : Connection :=
      { c₁ with cursors := c.cursors.map fun k => { k with registered := false } }
    have hopen : Goes c (.shutDown e closing :: rest) c₁
        (.drain e :: (sequel c closing ++ rest)) := by
      refine goes_change (.drain e :: sequel c closing) rfl fun s pick hs => ?_
      simp only [Point.exec, hs, if_neg hc]
      cases closing <;> simp [sequel, hc, c₁]
    have hdrain : Goes c₁ (.drain e :: (sequel c closing ++ rest)) c₂
        (.fail e ((List.range c.cursors.length).filter fun i =>
          c.cursors[i]?.any (·.registered)) :: (sequel c closing ++ rest)) :=
      goes_change [_] rfl fun s pick hs => by simp only [Point.exec, hs]; rfl
    have hfail := goes_fail c₂ e ((List.range c.cursors.length).filter fun i =>
      c.cursors[i]?.any (·.registered)) (sequel c closing ++ rest)
    rw [foldl_fail_eq] at hfail
    exact (hopen.trans hdrain).trans hfail

/-- The writing direction is ended. -/
theorem goes_hangUp (c : Connection) (rest : List Point) :
    Goes c (.hangUp :: rest) c.closeWriter rest := by
  by_cases hc : c.writeClosed = true
  · rw [Connection.closeWriter, if_pos hc]
    exact goes_pass [] fun s pick hs => by simp only [Point.exec, hs, if_pos hc]
  · rw [Connection.closeWriter, if_neg hc]
    let c₁ : Connection := { c with writeClosed := true }
    have hflag : Goes c (.hangUp :: rest) c₁ (.awaitWriter :: rest) :=
      goes_change [_] rfl fun s pick hs => by simp only [Point.exec, hs, if_neg hc]; rfl
    have hturn : Goes c₁ (.awaitWriter :: rest) c₁ (.endWriting :: rest) :=
      goes_pass [_] fun s pick _ => rfl
    refine (hflag.trans hturn).trans (goes_writer [] (fun s hs h => ?_) fun s pick hs => ?_)
    · have hkept := h.close
      rwa [hs] at hkept ⊢
    · rw [Point.exec, hs]

end Closing

/-! ### Writing a request -/

section Writing

variable {m : Message} {w : FrameWriter} {f : FramingError}

theorem goes_afterFault (c : Connection) (f : FramingError) (q : Purpose) (rest : List Point) :
    Goes c (Point.afterFault f q ++ rest)
      (if (ClientError.ofFraming f).isFatal then c.shutDown (.ofFraming f) else c)
      (.wrote (some (.ofFraming f)) q :: rest) := by
  unfold Point.afterFault
  split
  · exact goes_shutDown c (.ofFraming f) .leave (.wrote (some (.ofFraming f)) q :: rest)
  · exact .refl _ _

theorem goes_feed_of_refused (q : Purpose) (rest : List Point)
    (h : c.writer.feed m.frame = (some f, w)) :
    Goes c (.feed m q :: rest) { c with writer := w } (Point.afterFault f q ++ rest) := by
  have hroom {w₁ : FrameWriter} {x : Option FramingError} (hw : c.writer.makeRoom = (x, w₁))
      (s : Store) (hs : s.conn = c) (hsettled : s.Settled) :
      s.accepted = [] ∨ w₁ = s.conn.writer := by
    have hkept := hsettled.makeRoom
    rw [hs, hw] at hkept
    rwa [hs]
  unfold FrameWriter.feed at h
  split at h
  next e w₁ hw =>
    cases h
    exact goes_writer _ (hroom hw) fun s pick hs => by simp only [Point.exec, hs, hw]
  next w₁ hw =>
    split at h
    · cases h
    next e he =>
      cases h
      exact goes_writer _ (hroom hw) fun s pick hs => by simp only [Point.exec, hs, hw, he]

/-- A frame in the buffer is written out, unless the stream fails. -/
theorem goes_feed (q : Purpose) (rest : List Point) (h : c.writer.feed m.frame = (none, w)) :
    (∃ f, w.flush = (some f, w) ∧
      Goes c (.feed m q :: rest) { c with writer := w } (Point.afterFault f q ++ rest)) ∨
    ∃ w', w.flush = (none, w') ∧
      Goes c (.feed m q :: rest) { c with writer := w', written := c.written ++ [m.query] }
        (.wrote none q :: rest) := by
  obtain ⟨w₁, buffer, hw₁, henc, rfl⟩ : ∃ w₁ buffer, c.writer.makeRoom = (none, w₁) ∧
      m.frame.encode w₁.limit w₁.buffer = .ok buffer ∧ { w₁ with buffer } = w := by
    unfold FrameWriter.feed at h
    split at h
    · cases h
    next w₁ hw₁ =>
      split at h
      next buffer henc =>
        cases h
        exact ⟨w₁, buffer, hw₁, henc, rfl⟩
      · cases h
  have hbuffer : buffer ≠ [] := by
    rw [Frame.encode_eq_append henc]
    exact List.append_ne_nil_of_right_ne_nil _ m.frame.bytes_ne_nil
  -- with the frame in the buffer the query is accepted, but not yet written
  have hfed (x : Thread) ts r (hx : x.Stands c (.feed m q :: rest) ts r) (pick : Nat) :
      x.carry (.feed m q) rest pick = ⟨⟨{ c with writer := { w₁ with buffer } },
        x.store.accepted ++ [m.query]⟩, .flush m q :: rest, ts, r⟩ := by
    have hroom := hx.settled.makeRoom
    rw [hx.conn, hw₁] at hroom
    have hstore := (hx.settled.setWriter (w := w₁) (by rwa [hx.conn])).1
    rw [Thread.carry]
    simp only [Point.exec, hx.conn, hw₁, henc, hstore, Store.accept, Store.pass, hx.started,
      hx.reply]
    simp
  by_cases hworks : ({ w₁ with buffer } : FrameWriter).Works
  · right
    have hflush := FrameWriter.flush_eq_of_works hworks hbuffer
    refine ⟨_, hflush, 2, fun x ts r hx => .next hx.todo fun pick => ?_⟩
    have haccepted : x.store.accepted = [] := by
      refine hx.settled.resolve_right fun hstuck => hstuck.2 ?_
      have hlink := c.writer.makeRoom_link
      rw [hw₁] at hlink
      rw [hx.conn]
      exact ⟨hlink.1.symm.trans hworks.1, hlink.2.symm.trans hworks.2⟩
    rw [hfed x ts r hx]
    refine .next rfl fun pick => .here ?_
    rw [Thread.carry]
    simp only [Point.exec, hflush, haccepted]
    exact ⟨rfl, .inl rfl, rfl, List.append_nil _, rfl⟩
  · left
    obtain ⟨f, hflush⟩ := FrameWriter.flush_eq_of_not_works hworks hbuffer
    refine ⟨f, hflush, 2, fun x ts r hx => .next hx.todo fun pick => ?_⟩
    rw [hfed x ts r hx]
    refine .next rfl fun pick => .here ?_
    rw [Thread.carry]
    simp only [Point.exec, hflush]
    have hstore := Store.setWriter_eq (s := ⟨{ c with writer := { w₁ with buffer } },
      x.store.accepted ++ [m.query]⟩) (w := { w₁ with buffer }) fun hb => absurd hb hbuffer
    rw [hstore]
    exact ⟨rfl, .inr ⟨hbuffer, hworks⟩, rfl, List.append_nil _, rfl⟩

/-- A request is written. -/
theorem goes_write (c : Connection) (query : Query) (q : Purpose) (rest : List Point) :
    Goes c (.write query q :: rest) (c.write query).2 (.wrote (c.write query).1 q :: rest) := by
  unfold Connection.write
  split
  next e he =>
    refine goes_pass [_] fun s pick _ => ?_
    simp only [Point.exec]
    split
    next hok => cases he.symm.trans hok
    next e' he' =>
      obtain rfl := Except.error.inj (he.symm.trans he')
      rfl
  next payload hpayload =>
    let m : Message := ⟨query, payload, hpayload⟩
    have hfed : Goes c (.write query q :: rest) c (.feed m q :: rest) := by
      have hwaits : Goes c (.write query q :: rest) c (.await m q :: rest) := by
        refine goes_pass [_] fun s pick _ => ?_
        simp only [Point.exec]
        split
        next payload' hok =>
          obtain rfl := Except.ok.inj (hpayload.symm.trans hok)
          rfl
        next he => cases hpayload.symm.trans he
      exact hwaits.trans (goes_pass [_] fun s pick _ => rfl)
    rw [show (⟨query.token, payload⟩ : Frame) = m.frame from rfl, FrameWriter.send]
    rcases hfeed : c.writer.feed m.frame with ⟨_ | f, w⟩
    · rcases goes_feed q rest hfeed with ⟨f, hflush, hgoes⟩ | ⟨w', hflush, hgoes⟩
      · simp only [hflush]
        exact (hfed.trans hgoes).trans (goes_afterFault _ f q rest)
      · simp only [hflush]
        exact hfed.trans hgoes
    · exact (hfed.trans (goes_feed_of_refused q rest hfeed)).trans (goes_afterFault _ f q rest)

end Writing

end Reql.Async
