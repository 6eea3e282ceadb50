import Reql.Proofs.Connection.Closing

/-! Each cause for which a connection may be closed does close it. -/
namespace Reql
namespace Connection

variable {c : Connection}

theorem shutDown_closed (c : Connection) (e : ClientError) : (c.shutDown e).closed = true := by
  unfold shutDown
  split
  · assumption
  · rfl

/-- Only a fault of the stream is an error of the transport. -/
theorem write_closed {q : Query} {reason : String}
    (hw : (c.write q).1 = some (.transport reason)) : (c.write q).2.closed = true := by
  obtain ⟨w, -, ⟨-, h⟩ | ⟨e, hq, h⟩ | ⟨reason', h⟩⟩ := c.write_cases q <;> rw [h] at hw ⊢
  · cases hw
  · obtain rfl : e = .transport reason := Option.some.inj hw
    cases Query.isFatal_refusal hq
  · exact shutDown_closed _ _

theorem stop_of_open (ho : c.closed = false) (t : Token) :
    c.stop t = c.write (.bare t .stop) := by
  rw [stop, if_neg (by rw [ho]; decide)]

theorem continueQuery_of_open (ho : c.closed = false) {t : Token} (hr : c.isRegistered t = true) :
    c.continueQuery t = c.write (.bare t .continue) := by
  rw [continueQuery, if_neg (by rw [ho]; decide), if_pos hr]

theorem finish_closed {id : CursorId} {k : Cursor} (hk : c.cursors[id]? = some k)
    (he : k.exclusive = true) : (c.finish id).closed = true := by
  simp only [finish, hk]
  rw [if_pos he]
  exact release_closed _

theorem closed_of_leaves {a : Action} {id : CursorId} {k : Cursor} (ha : a.Leaves c id)
    (hk : c.cursors[id]? = some k) (he : k.exclusive = true) : (c.after a).closed = true := by
  have hset (s : Inbox) := getElem?_modifyInbox hk fun _ => s
  cases a with
  | next i =>
    obtain ⟨rfl, hr⟩ := ha
    obtain ⟨offer, s, hstep⟩ : ∃ offer s, k.inbox.step = (offer, s) := ⟨_, _, rfl⟩
    have hread := next?_of_step hk hstep
    change (c.next? i).2.closed = true
    rw [hread] at hr ⊢
    cases offer with
    | value | wait => simp at hr
    | ended | failed => exact finish_closed (hset s) he
    | fetch =>
      obtain ⟨k', hk', -, hex⟩ := continueQuery_exclusive (hset s) k.token
      dsimp only at hr ⊢
      split at hr
      · simp at hr
      next hq =>
        rw [hq] at hk'
        exact finish_closed (getElem?_modifyInbox hk' Inbox.abandon) (hex.trans he)
  | prime i =>
    obtain ⟨rfl, e, hr⟩ := ha
    change (c.prime? i).2.closed = true
    simp only [prime?, hk] at hr ⊢
    split at hr
    · cases hr
    next s _ => exact finish_closed (hset s) he
    · cases hr
  | closeCursor i =>
    obtain rfl : i = id := ha
    change (c.closeCursor i).2.closed = true
    simp only [closeCursor, hk, he, if_true]
    split
    · exact release_closed _
    · exact close_closed _
  | dropCursor i =>
    obtain rfl : i = id := ha
    change (c.dropCursor i).closed = true
    rw [dropCursor_eq hk, he]
    split
    · rw [letGo_closed, release_closed]
    · contradiction
    · rw [letGo_closed, release_closed]
    · contradiction
  | _ => cases ha

/-- A request that fails for the stream closes the connection, whatever is done besides. -/
theorem closed_of_sends {a : Action} {q : Query} {reason : String} (ho : c.closed = false)
    (ha : a.Sends c q) (hw : (c.write q).1 = some (.transport reason)) :
    (c.after a).closed = true := by
  have hopen : ¬c.closed = true := by rw [ho]; decide
  have hfail {d : Connection} (h : d.writer = c.writer) : ∃ d', d'.closed = true ∧
      d.write q = (some (.transport reason), d') := by
    have hd : (d.write q).1 = some (.transport reason) := write_of_writer_eq hw h.symm
    exact ⟨(d.write q).2, write_closed hd, by rw [← hd]⟩
  have hrequest (hq : a.request? c = some q) : (c.after a).closed = true := by
    obtain ⟨k, -, hact⟩ := c.act_of_request ho hq
    obtain ⟨d, hd, h⟩ := hfail (c.prepare_writer a.isNoreply)
    rw [after, hact, h]
    exact hd
  cases a with
  | query | noreplyWait => exact hrequest ha
  | next id =>
    obtain ⟨k, hk, hstep, hreg, rfl⟩ := ha
    obtain ⟨offer, s, hs⟩ : ∃ offer s, k.inbox.step = (offer, s) := ⟨_, _, rfl⟩
    obtain rfl : offer = .fetch := by rw [← hstep, hs]
    obtain ⟨d, hd, h⟩ := hfail (d := c.modifyInbox id fun _ => s) rfl
    have hcont : (c.modifyInbox id fun _ => s).continueQuery k.token =
        (some (.transport reason), d) := by
      rw [← isRegistered_modifyInbox c id fun _ => s] at hreg
      exact (continueQuery_of_open (c := c.modifyInbox id fun _ => s) ho hreg).trans h
    change (c.next? id).2.closed = true
    rw [next?_of_step hk hs, hcont]
    cases hend : ((d.modifyInbox id Inbox.abandon).finish id).closed with
    | true => rfl
    | false =>
      have hopen' : d.closed = false := closed_of_finish (c := d.modifyInbox id Inbox.abandon) hend
      rw [hd] at hopen'
      cases hopen'
  | closeCursor id =>
    obtain ⟨k, hk, hrun, hex, rfl⟩ := ha
    obtain ⟨hc, hdone⟩ := Inbox.isRunning_iff.mp hrun
    obtain ⟨d, hd, h⟩ := hfail (d := (c.modifyInbox id Inbox.close).deregister k.token) rfl
    change (c.closeCursor id).2.closed = true
    simp only [closeCursor, hk, hc, hex, hdone, Bool.false_eq_true, if_false]
    rw [stop_of_open (c := (c.modifyInbox id Inbox.close).deregister k.token) ho, h]
    exact hd
  | dropCursor id =>
    obtain ⟨k, hk, hrun, hex, rfl⟩ := ha
    obtain ⟨d, hd, h⟩ := hfail (d := (c.modifyInbox id Inbox.drop).deregister k.token) rfl
    change (c.dropCursor id).closed = true
    rw [dropCursor_eq hk, hrun, hex]
    dsimp only
    rw [letGo_closed, stop_of_open (c := (c.modifyInbox id Inbox.drop).deregister k.token) ho, h]
    exact hd
  | continueQuery t =>
    obtain ⟨hreg, rfl⟩ := ha
    change (c.continueQuery t).2.closed = true
    rw [continueQuery_of_open ho hreg]
    exact write_closed hw
  | stop t =>
    obtain rfl : q = .bare t .stop := ha
    change (c.stop t).2.closed = true
    rw [stop_of_open ho]
    exact write_closed hw
  | _ => cases ha

/-- Each cause closes an open connection. -/
theorem Cause.closed {a : Action} {e : ClientError} (h : Cause c a e) (ho : c.closed = false) :
    (c.after a).closed = true := by
  cases h with
  | close => exact close_closed c
  | released ha hk he => exact closed_of_leaves ha hk he
  | ended => exact shutDown_closed _ _
  | failed e => exact shutDown_closed _ _
  | unwritten hq hw _ => exact closed_of_sends ho hq hw

end Connection
end Reql
