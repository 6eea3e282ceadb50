import Reql.Proofs.Async.Uninterrupted
import Reql.Proofs.Connection.Causes
import Reql.Proofs.Connection.Draining

/-! Calls that nothing interrupts do what the actions of a connection do in one piece. -/
namespace Reql

theorem Inbox.prime_eq_self {s s' : Inbox} {offer : Primed} (h : s.prime = (offer, s'))
    (hoffer : ∀ e, offer ≠ .failed e) : s' = s := by
  unfold prime at h
  repeat' split at h
  all_goals cases h
  all_goals first | rfl | exact absurd rfl (hoffer _)

namespace Connection

variable {c : Connection} {id : CursorId} {k : Cursor}

theorem modifyInbox_of_cursor (hk : c.cursors[id]? = some k) (f : Inbox → Inbox) :
    c.modifyInbox id f = c.modifyInbox id fun _ => f k.inbox := by
  have h := modifyInbox_modifyInbox c id (fun _ => k.inbox) f
  rwa [modifyInbox_eq_self hk] at h

def setHeld (c : Connection) (id : CursorId) (held : Bool) : Connection :=
  { c with cursors := c.cursors.modify id fun k => { k with held } }

theorem closeWriter_setHeld (c : Connection) (id : CursorId) (held : Bool) :
    (c.setHeld id held).closeWriter = c.closeWriter.setHeld id held := by
  unfold closeWriter
  cases hc : c.writeClosed <;> simp [setHeld, hc]

theorem shutDown_setHeld (c : Connection) (id : CursorId) (held : Bool) (e : ClientError) :
    (c.setHeld id held).shutDown e = (c.shutDown e).setHeld id held := by
  have hcursors : (c.cursors.modify id fun k => { k with held }).map (·.lose e) =
      (c.cursors.map (·.lose e)).modify id fun k => { k with held } := by
    refine List.ext_getElem? fun i => ?_
    simp only [List.getElem?_map, List.getElem?_modify]
    cases c.cursors[i]? with
    | none => rfl
    | some k => by_cases hi : id = i <;> by_cases hr : k.registered <;> simp [hi, hr, Cursor.lose]
  unfold shutDown
  cases hc : c.closed <;> simp [setHeld, hc, hcursors]

theorem write_setHeld (c : Connection) (id : CursorId) (held : Bool) (q : Query) :
    (c.setHeld id held).write q = ((c.write q).1, (c.write q).2.setHeld id held) := by
  have hwriter : (c.setHeld id held).writer = c.writer := rfl
  unfold write
  cases hp : q.payload with
  | error e => rfl
  | ok payload =>
    simp only [hwriter]
    cases hs : c.writer.send ⟨q.token, payload⟩ with
    | mk r w =>
      cases r with
      | none => rfl
      | some e =>
        dsimp only
        split
        · exact congrArg (Prod.mk _) (shutDown_setHeld { c with writer := w } id held _)
        · rfl

theorem stop_setHeld (c : Connection) (id : CursorId) (held : Bool) (t : Token) :
    ((c.setHeld id held).stop t).2 = (c.stop t).2.setHeld id held := by
  have hclosed : (c.setHeld id held).closed = c.closed := rfl
  unfold stop
  rw [hclosed, write_setHeld]
  split <;> rfl

end Connection

namespace Async

open Connection (Reply)

variable {c c' : Connection} {ps rest : List Point} {p : Point} {r : Reply} {id : CursorId}
  {k : Cursor} {t : Token}

theorem goes_shutDown_of_closed (hc : c.closed = true) (rest : List Point) :
    Goes c (.shutDown .connectionClosed .release :: rest) c rest := by
  have hshut := goes_shutDown c .connectionClosed .release rest
  rwa [sequel, if_pos hc, Connection.shutDown, if_pos hc] at hshut

/-- The owner of an exclusive cursor is done with it, and then a last section follows, which may
come before the stream is shut down. -/
theorem carried_release {f : Connection → Connection} (exclusive : Bool)
    (hp : ∀ d : Connection, d.cursors.length = c.cursors.length → Ends d [p] (f d) [] r)
    (hf : ∀ d, (f d).closeWriter = f d.closeWriter) :
    Carried c ((if exclusive then [.shutDown .connectionClosed .release] else []) ++ [p])
      (f (if exclusive then c.release else c)) r := by
  cases exclusive with
  | false => exact .inl (hp c rfl)
  | true =>
    cases hc : c.closed with
    | true =>
      rw [if_pos rfl, if_pos rfl, Connection.release, if_pos hc]
      exact (goes_shutDown_of_closed hc [p]).carried (.inl (hp c rfl))
    | false =>
      have hopen : ¬c.closed = true := by rw [hc]; decide
      have hshut := goes_shutDown c .connectionClosed .release [p]
      rw [sequel, if_neg hopen] at hshut
      rw [if_pos rfl, if_pos rfl, Connection.release, if_neg hopen, Connection.close, ← hf]
      refine hshut.carried (.inr ⟨f (c.shutDown .connectionClosed), .hangUp, rfl,
        ends_spawn (fun _ _ => rfl) (hp _ ?_), (goes_hangUp _ []).finishes⟩)
      rw [Connection.shutDown, if_neg hopen, List.length_map]

theorem goes_deregister (c : Connection) (t : Token) (rest : List Point) :
    Goes c (.deregister t :: rest) (c.deregister t) rest :=
  goes_change [] rfl fun s pick hs => by rw [Point.exec, hs]

theorem carried_finish (hk : c.cursors[id]? = some k) (r : Reply) :
    Carried c (Point.finish k ++ [.reply r]) (c.finish id) r := by
  simp only [Connection.finish, hk]
  exact (goes_deregister c k.token _).carried
    (carried_release k.exclusive (fun c _ => ends_reply c r) fun _ => rfl)

/-- A section on an inbox. -/
theorem goes_inbox (hk : c.cursors[id]? = some k) (f : Inbox → Inbox) (g : Cursor → List Point)
    (rest : List Point) (h : ∀ s pick, p.exec true pick s = s.onInbox id f g) :
    Goes c (p :: rest) (c.modifyInbox id fun _ => f k.inbox) (g k ++ rest) := by
  rw [← Connection.modifyInbox_of_cursor hk f]
  refine goes_change (g k) rfl fun s pick hs => ?_
  rw [h, Store.onInbox, Store.onCursor, hs, hk]
  rfl

/-- More is asked for. -/
theorem goes_check (c : Connection) (t : Token) (q : Purpose) (rest : List Point) :
    Goes c (.check t q :: rest) (c.continueQuery t).2
      (.wrote (c.continueQuery t).1 q :: rest) := by
  unfold Connection.continueQuery
  split
  next hc => exact goes_pass [_] fun s pick hs => by simp only [Point.exec, hs, if_pos hc]
  next hc =>
    have hopen : Goes c (.check t q :: rest) c (.lookUp t q :: rest) :=
      goes_pass [_] fun s pick hs => by simp only [Point.exec, hs, if_neg hc]
    split
    next hr =>
      have hfound : Goes c (.lookUp t q :: rest) c (.write (.bare t .continue) q :: rest) :=
        goes_pass [_] fun s pick hs => by simp only [Point.exec, hs, if_pos hr]
      exact (hopen.trans hfound).trans (goes_write c _ q rest)
    next hr =>
      exact hopen.trans (goes_pass [_] fun s pick hs => by simp only [Point.exec, hs, if_neg hr])

/-- What a caller has asked for by itself is written, or not. -/
theorem ends_wrote (c : Connection) (e : Option ClientError) :
    Ends c [.wrote e .other] c [] (.done e) :=
  (goes_pass [_] fun _ _ _ => rfl : Goes c [.wrote e .other] c [.reply (.done e)]).ends
    (ends_reply c _)

theorem ends_continueQuery (c : Connection) (t : Token) :
    Ends c [.check t .other] (c.continueQuery t).2 [] (.done (c.continueQuery t).1) :=
  (goes_check c t .other []).ends (ends_wrote _ _)

theorem ends_stop (c : Connection) (t : Token) :
    Ends c [.halt t] (c.stop t).2 [] (.done (c.stop t).1) := by
  unfold Connection.stop
  split
  next hc =>
    have hpass : Goes c [.halt t] c [.wrote none .other] :=
      goes_pass [_] fun s pick hs => by simp only [Point.exec, hs, if_pos hc]
    exact hpass.ends (ends_wrote c none)
  next hc =>
    have hopen : Goes c [.halt t] c [.write (.bare t .stop) .other] :=
      goes_pass [_] fun s pick hs => by simp only [Point.exec, hs, if_neg hc]
    exact (hopen.trans (goes_write c _ .other [])).ends (ends_wrote _ _)

theorem ends_close (c : Connection) :
    Ends c (State.opening .close) c.close [] (.done none) :=
  ((goes_shutDown c .connectionClosed .hangUp _).trans (goes_hangUp _ _)).ends (ends_reply _ _)

/-- A cursor is read. -/
theorem carried_next (hk : c.cursors[id]? = some k) :
    Carried c [.read id] (c.next? id).2 (.read (c.next? id).1) := by
  have hread : Goes c [.read id] (c.modifyInbox id fun _ => k.inbox.step.2)
      (Point.afterRead id k ++ []) := goes_inbox hk (fun i => i.step.2) _ [] fun _ _ => rfl
  rw [List.append_nil] at hread
  refine hread.carried ?_
  have hset := Connection.getElem?_modifyInbox hk fun _ => k.inbox.step.2
  simp only [Connection.next?, hk, Point.afterRead]
  rcases hstep : k.inbox.step with ⟨offer, s⟩
  rw [hstep] at hset
  cases offer with
  | value v => exact carried_reply _ _
  | ended => exact carried_finish hset _
  | failed e => exact carried_finish hset _
  | wait =>
    obtain ⟨-, -, -, -, -, rfl⟩ := Inbox.step_eq_wait.mp hstep
    rw [Connection.modifyInbox_eq_self hk]
    exact carried_reply _ _
  | fetch =>
    dsimp only
    refine (goes_check _ k.token (.fetch id) []).carried ?_
    obtain ⟨l, hl, htoken, hexclusive⟩ := Connection.continueQuery_exclusive hset k.token
    rcases hq : (c.modifyInbox id fun _ => s).continueQuery k.token with ⟨_ | e, d⟩
    · exact (goes_pass [_] fun _ _ _ => rfl :
        Goes d [.wrote none (.fetch id)] d [.reply (.read none)]).carried (carried_reply d _)
    · rw [hq] at hl
      have hfault : Goes d [.wrote (some e) (.fetch id)] (d.modifyInbox id Inbox.abandon)
          ((Point.finish l ++ [.reply (.read (some (.error e)))]) ++ []) := by
        rw [Connection.modifyInbox_of_cursor hl Inbox.abandon]
        exact goes_inbox (p := .wrote (some e) (.fetch id)) hl Inbox.abandon
          (fun k => Point.finish k ++ [.reply (.read (some (.error e)))]) [] fun _ _ => rfl
      rw [List.append_nil] at hfault
      exact hfault.carried (carried_finish (Connection.getElem?_modifyInbox hl Inbox.abandon) _)

/-- The first answer of a cursor is waited for. -/
theorem carried_prime (hk : c.cursors[id]? = some k) :
    Carried c [.prime id] (c.prime? id).2 (.primed (c.prime? id).1) := by
  have hprime : Goes c [.prime id] (c.modifyInbox id fun _ => k.inbox.prime.2)
      (Point.afterPrime k ++ []) := goes_inbox hk (fun i => i.prime.2) _ [] fun _ _ => rfl
  rw [List.append_nil] at hprime
  refine hprime.carried ?_
  have hset := Connection.getElem?_modifyInbox hk fun _ => k.inbox.prime.2
  simp only [Connection.prime?, hk, Point.afterPrime]
  rcases hp : k.inbox.prime with ⟨offer, s⟩
  rw [hp] at hset
  cases offer with
  | failed e => exact carried_finish hset _
  | ready | wait =>
    rw [Inbox.prime_eq_self hp (by simp), Connection.modifyInbox_eq_self hk]
    exact carried_reply _ _

/-- A cursor is closed. -/
theorem carried_closeCursor (hk : c.cursors[id]? = some k) :
    Carried c [.close id] (c.closeCursor id).2 (.done (c.closeCursor id).1) := by
  have hclose : Goes c [.close id]
      (c.modifyInbox id fun _ => if k.inbox.closed then k.inbox else k.inbox.close)
      (Point.afterClose k ++ []) :=
    goes_inbox hk (fun i => if i.closed then i else i.close) _ [] fun _ _ => rfl
  rw [List.append_nil] at hclose
  refine hclose.carried ?_
  simp only [Connection.closeCursor, hk, Point.afterClose]
  split
  next hc =>
    rw [Connection.modifyInbox_eq_self hk]
    exact carried_release k.exclusive (fun c _ => ends_reply c _) fun _ => rfl
  next hc =>
    rw [← Connection.modifyInbox_of_cursor hk Inbox.close]
    refine (goes_deregister _ k.token _).carried ?_
    split
    next hex =>
      -- the connection is closed before the cursor is released, and then for good
      let d := (c.modifyInbox id Inbox.close).deregister k.token
      have hclosed : d.close.closed = true :=
        (Connection.closeWriter_closed _).trans (Connection.shutDown_closed d _)
      have hshut := goes_shutDown d .connectionClosed .hangUp
        [.shutDown .connectionClosed .release, .reply (.done none)]
      exact ((hshut.trans (goes_hangUp _ _)).trans (goes_shutDown_of_closed hclosed _)).carried
        (carried_reply _ _)
    next hex =>
      split
      next hdone => exact carried_reply _ _
      next hdone => exact .inl (ends_stop _ _)

theorem ends_letGo (h : id < c.cursors.length) :
    Ends c [.letGo id] (c.setHeld id false) [] (.done none) := by
  have hgone : Goes c [.letGo id] (c.setHeld id false) [.reply (.done none)] := by
    refine goes_change [_] rfl fun s pick hs => ?_
    rw [Point.exec, Store.onCursor, hs, List.getElem?_eq_getElem h]
    rfl
  exact hgone.ends (ends_reply _ _)

/-- A cursor is dropped; what is left is to give up the stream if nobody holds it any more. -/
theorem carried_dropCursor (hk : c.cursors[id]? = some k) :
    ∃ c', Carried c [.leave id] c' (.done none) ∧ c'.collect = c.dropCursor id := by
  have hleave : Goes c [.leave id] (c.modifyInbox id Inbox.drop) (Point.afterLeave id k ++ []) := by
    rw [Connection.modifyInbox_of_cursor hk]
    exact goes_inbox (p := .leave id) hk Inbox.drop _ [] fun _ _ => rfl
  rw [List.append_nil] at hleave
  have hlt : id < c.cursors.length := (List.getElem?_eq_some_iff.mp hk).choose
  have hlength (d : Connection) (hd : d.cursors.length = c.cursors.length) :
      Ends d [.letGo id] (d.setHeld id false) [] (.done none) := ends_letGo (hd ▸ hlt)
  have hrelease (d : Connection) (hd : d.cursors.length = c.cursors.length) :
      Carried d [.shutDown .connectionClosed .release, .letGo id]
        (d.release.setHeld id false) (.done none) :=
    carried_release true (fun d' hd' => hlength d' (hd'.trans hd))
      fun d => d.closeWriter_setHeld id false
  have hmodify : (c.modifyInbox id Inbox.drop).cursors.length = c.cursors.length :=
    List.length_modify _ _ _
  have hgone : ((c.modifyInbox id Inbox.drop).deregister k.token).cursors.length =
      c.cursors.length := (List.length_map _).trans hmodify
  rw [Connection.dropCursor_eq hk]
  unfold Point.afterLeave at hleave
  split
  next hrun hex =>
    rw [hrun, hex] at hleave
    exact ⟨_, (hleave.trans (goes_deregister _ _ _)).carried (hrelease _ hgone), rfl⟩
  next hrun hex =>
    rw [hrun, hex] at hleave
    let d := (c.modifyInbox id Inbox.drop).deregister k.token
    refine ⟨((d.stop k.token).2).setHeld id false, ?_, rfl⟩
    rw [← Connection.stop_setHeld]
    exact (hleave.trans (goes_deregister _ _ _)).carried (.inr ⟨d.setHeld id false, _, rfl,
      ends_spawn (fun _ _ => rfl) (hlength d hgone), (ends_stop _ _).finishes⟩)
  next hrun hex =>
    rw [hrun, hex] at hleave
    exact ⟨_, hleave.carried (hrelease _ hmodify), rfl⟩
  next hrun hex =>
    rw [hrun, hex] at hleave
    exact ⟨_, hleave.carried (.inl (hlength _ hmodify)), rfl⟩

/-! ### Requests -/

/-- A request comes to its end as `x` says, but if it has been registered and cannot be written, its
cursor stays where it was put. -/
def Gives (c : Connection) (ps : List Point) (x : Except ClientError CursorId × Connection) :
    Prop :=
  ∃ c', Carried c ps c' (.done (Connection.errorOf x.1)) ∧
    (c' = x.2 ∨ c.closed = false ∧ (∃ e, x.1 = .error e) ∧ c'.forget c.cursors.length = x.2)

variable {request : Request}

theorem gives_enter_of_closed (hc : c.closed = true) (request : Request) :
    Gives c [.enter request] (.error .connectionClosed, c) := by
  have henter : Goes c [.enter request] c [.reply (.done (some .connectionClosed))] :=
    goes_pass [_] fun s pick hs => by simp only [Point.exec, hs, if_pos hc]
  exact ⟨c, henter.carried (carried_reply _ _), .inl rfl⟩

theorem Gives.enter {x : Except ClientError CursorId × Connection} (ho : c.closed = false)
    (h : Gives c [.take (request.withDefaultDb c.database)] x) : Gives c [.enter request] x := by
  have henter : Goes c [.enter request] c [.take (request.withDefaultDb c.database)] :=
    goes_pass [_] fun s pick hs => by
      simp only [Point.exec, hs, ho, Bool.false_eq_true, if_false]
  obtain ⟨c', h, hleaves⟩ := h
  exact ⟨c', henter.carried h, hleaves⟩

theorem ends_handOver (c : Connection) (t : Token) (id : CursorId) :
    Ends c [.wrote none (.query t id)] (c.handOver id) [] (.done none) := by
  refine ends_answer rfl fun s pick hs => ?_
  have hcursor : s.onCursor id (fun k => { k with held := true }) (fun _ => []) =
      s.change (c.handOver id) [] := by
    unfold Store.onCursor
    cases hk : s.conn.cursors[id]? with
    | some k => rw [← hs]; rfl
    | none =>
      have hsame : c.handOver id = c := by
        rw [← hs, Connection.handOver, List.modify_eq_self (List.getElem?_eq_none_iff.mp hk)]
      rw [hsame, ← hs]
      rfl
  rw [← hcursor]
  rfl

/-- A query that is registered is written, or else its registration is taken back. -/
theorem gives_ask (ho : c.closed = false) (request : Request)
    (hreply : request.isNoreply = false) :
    Gives c [.take request]
      (c.ask request.term request.isExclusive fun t => request.message t) := by
  let t := c.tokens.next
  let c₁ : Connection := { c with tokens := c.tokens.take.2 }
  let id := (c₁.register t request.term request.isExclusive).1
  let d := (c₁.register t request.term request.isExclusive).2
  have hid : id = c.cursors.length := List.length_map _
  have hopen : ¬d.closed = true := by
    change ¬c.closed = true
    rw [ho]
    decide
  have htake : Goes c [.take request] c₁ [.register t request] :=
    goes_change [_] rfl fun s pick hs => by
      simp only [Point.exec, hs, hreply, Bool.false_eq_true, if_false]
      rfl
  have hregister : Goes c₁ [.register t request] d [.recheck t id request] :=
    goes_change [_] rfl fun s pick hs => by simp only [Point.exec, hs]; rfl
  have hrecheck : Goes d [.recheck t id request] d [.write (request.message t) (.query t id)] :=
    goes_pass [_] fun s pick hs => by simp only [Point.exec, hs, if_neg hopen]
  have hwrite := ((htake.trans hregister).trans hrecheck).trans
    (goes_write d (request.message t) (.query t id) [])
  rcases hw : d.write (request.message t) with ⟨_ | e, d'⟩
  · rw [hw] at hwrite
    rw [Connection.ask_of_written ho rfl hw]
    exact ⟨_, hwrite.carried (.inl (ends_handOver d' t id)), .inl rfl⟩
  · rw [hw] at hwrite
    rw [Connection.ask_of_unwritten ho rfl hw]
    have hfault : Goes d' [.wrote (some e) (.query t id)] d'
        [.deregister t, .reply (.done (some e))] := goes_pass [_, _] fun _ _ _ => rfl
    have hforget := congrArg (d'.deregister t).forget hid.symm
    refine ⟨d'.deregister t, ?_, .inr ⟨ho, ⟨e, rfl⟩, hforget⟩⟩
    exact ((hwrite.trans hfault).trans (goes_deregister d' t _)).carried (carried_reply _ _)

/-- A query that wants no answer is written, and its cursor is finished from the beginning. -/
theorem gives_noreply (c : Connection) (request : Request) (hreply : request.isNoreply = true) :
    Gives c [.take request] (match { c with tokens := c.tokens.take.2 }.write
        (request.message c.tokens.next) with
      | (some e, d) => (.error e, d)
      | (none, d) =>
        let k : Cursor :=
          ⟨c.tokens.next, request.term, request.isExclusive, .finished, false, true⟩
        (.ok (d.addCursor k).1, (d.addCursor k).2)) := by
  let t := c.tokens.next
  let c₁ : Connection := { c with tokens := c.tokens.take.2 }
  have htake : Goes c [.take request] c₁ [.write (request.message t) (.noreply t request)] :=
    goes_change [_] rfl fun s pick hs => by
      simp only [Point.exec, hs, hreply, if_true]
      rfl
  have hwrite := htake.trans (goes_write c₁ (request.message t) (.noreply t request) [])
  change Gives c _ (match c₁.write (request.message t) with | (some e, d) => _ | (none, d) => _)
  rcases hw : c₁.write (request.message t) with ⟨_ | e, d⟩
  · rw [hw] at hwrite
    have hadd : Ends d [.wrote none (.noreply t request)]
        (d.addCursor ⟨t, request.term, request.isExclusive, .finished, false, true⟩).2 []
        (.done none) :=
      ends_answer rfl fun s pick hs => by rw [Point.exec, hs]
    exact ⟨_, hwrite.carried (.inl hadd), .inl rfl⟩
  · rw [hw] at hwrite
    have hfault : Goes d [.wrote (some e) (.noreply t request)] d [.reply (.done (some e))] :=
      goes_pass [_] fun _ _ _ => rfl
    exact ⟨d, (hwrite.trans hfault).carried (carried_reply _ _), .inl rfl⟩

theorem gives_query (c : Connection) (term : Term) (options : QueryOptions) (exclusive : Bool) :
    Gives c [.enter (.query term options exclusive)] (c.query term options exclusive) := by
  unfold Connection.query
  split
  next hc => exact gives_enter_of_closed hc _
  next hc =>
    refine Gives.enter (by simpa using hc) ?_
    dsimp only
    split
    next hreply => exact gives_noreply c (.query term _ exclusive) hreply
    next hreply =>
      exact gives_ask (by simpa using hc) (.query term _ exclusive) (eq_false_of_ne_true hreply)

theorem gives_noreplyWait (c : Connection) :
    Gives c [.enter .noreplyWait] c.noreplyWait := by
  unfold Connection.noreplyWait
  split
  next hc => exact gives_enter_of_closed hc _
  next hc =>
    have ho : c.closed = false := by simpa using hc
    exact Gives.enter ho (gives_ask ho .noreplyWait rfl)

/-! ### All calls -/

/-- Whether the one who calls gives something up by which the stream may be held. -/
def letsGo : Connection.Action → Bool
  | .drop | .dropCursor _ => true
  | _ => false

/-- What comes of the connection by a call that nothing interrupts: the same as by the action in one
piece, but if a request has been registered and cannot be written, its cursor stays where it was. -/
def Leaves (c : Connection) (call : Connection.Action) (c' : Connection) : Prop :=
  c' = c.after call ∨ c.closed = false ∧ (∃ q, call.request? c = some q) ∧
    (∃ e, (c.act call).1 = .done (some e)) ∧ c'.forget c.cursors.length = c.after call

theorem carried_call (c : Connection) {call : Connection.Action} (hcall : State.opening call ≠ [])
    (hcursor : ∀ id, call.cursor? = some id → ∃ k, c.cursors[id]? = some k) :
    ∃ c', Carried c (State.opening call) c' (c.act call).1 ∧
      Leaves c call (if letsGo call then c'.collect else c') := by
  have hrequest {x : Except ClientError CursorId × Connection} {q : Query}
      (hact : c.act call = (.done (Connection.errorOf x.1), x.2))
      (hq : call.request? c = some q) (hstays : letsGo call = false)
      (h : Gives c (State.opening call) x) :
      ∃ c', Carried c (State.opening call) c' (c.act call).1 ∧
        Leaves c call (if letsGo call then c'.collect else c') := by
    obtain ⟨c', hcarried, hleaves⟩ := h
    refine ⟨c', by rwa [hact], ?_⟩
    rw [if_neg (by rw [hstays]; decide), Leaves, Connection.after, hact]
    rcases hleaves with h | ⟨ho, ⟨e, he⟩, h⟩
    · exact .inl h
    · exact .inr ⟨ho, ⟨q, hq⟩, ⟨e, by rw [he]; rfl⟩, h⟩
  cases call with
  | query term options exclusive =>
    exact hrequest rfl rfl rfl (gives_query c term options exclusive)
  | noreplyWait => exact hrequest rfl rfl rfl (gives_noreplyWait c)
  | next id =>
    obtain ⟨k, hk⟩ := hcursor id rfl
    exact ⟨_, carried_next hk, .inl rfl⟩
  | prime id =>
    obtain ⟨k, hk⟩ := hcursor id rfl
    exact ⟨_, carried_prime hk, .inl rfl⟩
  | closeCursor id =>
    obtain ⟨k, hk⟩ := hcursor id rfl
    exact ⟨_, carried_closeCursor hk, .inl rfl⟩
  | dropCursor id =>
    obtain ⟨k, hk⟩ := hcursor id rfl
    obtain ⟨c', hcarried, hc'⟩ := carried_dropCursor hk
    exact ⟨c', hcarried, .inl hc'⟩
  | continueQuery t => exact ⟨_, .inl (ends_continueQuery c t), .inl rfl⟩
  | stop t => exact ⟨_, .inl (ends_stop c t), .inl rfl⟩
  | close => exact ⟨_, .inl (ends_close c), .inl rfl⟩
  | _ => exact absurd rfl hcall

/-! ### Reports -/

variable {f : Frame}

/-- A change that concerns one cursor only. -/
theorem map_eq_modify {g h : Cursor → Cursor} {cs : List Cursor}
    (hsame : ∀ k, cs[id]? = some k → g k = h k)
    (hothers : ∀ i k, i ≠ id → cs[i]? = some k → g k = k) : cs.map g = cs.modify id h := by
  refine List.ext_getElem? fun i => ?_
  rw [List.getElem?_map, List.getElem?_modify]
  cases hk : cs[i]? with
  | none => rfl
  | some k =>
    by_cases hi : id = i
    · subst hi
      simp [hsame k hk]
    · simp [hi, hothers i k (fun h => hi h.symm) hk]

section

variable {k : Cursor} (h : c.Orderly) (hk : c.cursors[id]? = some k) (hr : k.registered = true)
  (ht : k.token = f.token)

include h hk hr ht

/-- Where a cursor is registered under the token of a frame, no other one is. -/
theorem not_registered_of_ne {i : CursorId} {l : Cursor} (hi : i ≠ id)
    (hl : c.cursors[i]? = some l) : ¬(l.registered = true ∧ l.token = f.token) := by
  rintro ⟨hlr, hlt⟩
  exact hi (h.distinct i id l k hl hk hlr hr (hlt.trans ht.symm))

theorem route_eq_modify {g : Cursor → Cursor} (hg : k.receive f = g k) :
    c.route f = { c with cursors := c.cursors.modify id g } := by
  have hcursors : c.cursors.map (·.receive f) = c.cursors.modify id g := by
    refine map_eq_modify (fun l hl => ?_) fun i l hi hl => ?_
    · obtain rfl := Option.some.inj (hk.symm.trans hl)
      exact hg
    · rw [Cursor.receive, if_neg (not_registered_of_ne h hk hr ht hi hl)]
  rw [Connection.route, hcursors]

theorem deregister_eq_modify :
    c.deregister f.token =
      { c with cursors := c.cursors.modify id (·.deregister f.token) } := by
  have hcursors : c.cursors.map (·.deregister f.token) =
      c.cursors.modify id (·.deregister f.token) := by
    refine map_eq_modify (fun _ _ => rfl) fun i l hi hl => ?_
    unfold Cursor.deregister
    split
    next hlt =>
      have hlr : l.registered = false := by
        simpa [hlt] using not_registered_of_ne h hk hr ht hi hl
      rw [← hlr]
    next => rfl
  rw [Connection.deregister, hcursors]

/-- The last answer, or a payload that is none. -/
theorem goes_last {p : Point} {g : Inbox → Inbox}
    (hg : k.receive f = { k with registered := false, inbox := g k.inbox })
    (hp : ∀ s pick, p.exec true pick s = s.onInbox id g fun _ => []) :
    Goes c [.deregister f.token, p] (c.route f) [] := by
  have hk' := Connection.getElem?_deregister hk
  rw [ht] at hk'
  have hinbox := goes_inbox hk' g (fun _ => []) [] hp
  rw [← Connection.modifyInbox_of_cursor hk' g] at hinbox
  refine (goes_deregister c f.token [p]).trans ?_
  have hboth : (c.deregister f.token).modifyInbox id g = c.route f := by
    rw [deregister_eq_modify h hk hr ht, route_eq_modify h hk hr ht
      (g := fun l => { l.deregister f.token with inbox := g (l.deregister f.token).inbox })
      (by rw [hg, Cursor.deregister, if_pos ht])]
    simp only [Connection.modifyInbox, List.modify_modify_eq]
    rfl
  rwa [← hboth]

theorem goes_batch {r : Response} (hdecode : Response.decode f.token f.payload = .ok r)
    (hbatch : r.body.isBatch = true) : Goes c [.deliver id r] (c.route f) [] := by
  have hinbox := goes_inbox (p := .deliver id r) hk (·.deliver r) (fun _ => []) [] fun _ _ => rfl
  rw [← Connection.modifyInbox_of_cursor hk (·.deliver r)] at hinbox
  rwa [route_eq_modify h hk hr ht (g := fun l => { l with inbox := l.inbox.deliver r })]
  simp only [Cursor.receive, hr, ht, and_self, if_true, hdecode, hbatch]

end

/-- A frame is routed: its token is registered for one cursor at most. -/
theorem goes_route (h : c.Orderly) (f : Frame) : Goes c [.route f] (c.route f) [] := by
  have hfind : c.cursors.findIdx? (fun k => k.registered && k.token == f.token) =
      c.holder? f.token := rfl
  cases hid : c.holder? f.token with
  | none =>
    have hnone : c.isRegistered f.token = false := by
      rw [Connection.isRegistered_eq_isSome, hid]
      rfl
    rw [Connection.route_eq_self hnone]
    exact goes_pass [] fun s pick hs => by simp only [Point.exec, hs, hfind, hid]
  | some id =>
    obtain ⟨k, hk, hr, ht⟩ := h.holder?_eq_some.mp hid
    cases hdecode : Response.decode f.token f.payload with
    | error e =>
      have hfound : Goes c [.route f] c [.deregister f.token, .reject id (.ofProtocol e)] :=
        goes_pass [_, _] fun s pick hs => by simp only [Point.exec, hs, hfind, hid, hdecode]
      refine hfound.trans (goes_last h hk hr ht (g := (·.fail (.ofProtocol e))) ?_ fun _ _ => rfl)
      simp only [Cursor.receive, hr, ht, and_self, if_true, hdecode]
    | ok r =>
      cases hbatch : r.body.isBatch with
      | false =>
        have hfound : Goes c [.route f] c [.deregister f.token, .deliver id r] :=
          goes_pass [_, _] fun s pick hs => by
            simp only [Point.exec, hs, hfind, hid, hdecode, hbatch, Bool.false_eq_true, if_false]
        refine hfound.trans (goes_last h hk hr ht (g := (·.deliver r)) ?_ fun _ _ => rfl)
        simp only [Cursor.receive, hr, ht, and_self, if_true, hdecode, hbatch]
      | true =>
        have hfound : Goes c [.route f] c [.deliver id r] :=
          goes_pass [_] fun s pick hs => by
            simp only [Point.exec, hs, hfind, hid, hdecode, hbatch, if_true]
        exact hfound.trans (goes_batch h hk hr ht hdecode hbatch)

theorem goes_report (h : c.Orderly) (event : FrameEvent) :
    Goes c [State.incoming event] (c.handle event) [] := by
  cases event with
  | frame f => exact goes_route h f
  | failed e => exact goes_shutDown c (.ofFraming e) .leave []
  | ended => exact goes_shutDown c .connectionClosed .leave []

end Async
end Reql
