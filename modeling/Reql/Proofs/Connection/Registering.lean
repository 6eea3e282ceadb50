import Reql.Connection.Basic

/-! A query is registered before its request is written, and not at all if that fails. -/
namespace Reql

namespace Cursor

variable (k : Cursor) (t : Token) (e : ClientError)

@[simp] theorem deregister_deregister : (k.deregister t).deregister t = k.deregister t := by
  by_cases h : k.token = t <;> simp [deregister, h]

@[simp] theorem lose_deregister :
    ((k.deregister t).lose e).deregister t = (k.deregister t).lose e := by
  by_cases h : k.token = t
  · simp [deregister, lose, h]
  · cases hr : k.registered <;> simp [deregister, lose, h, hr]

@[simp] theorem lose_token : (k.lose e).token = k.token := by
  unfold lose
  split <;> rfl

@[simp] theorem lose_held : (k.lose e).held = k.held := by
  unfold lose
  split <;> rfl

end Cursor

namespace Connection

variable {c : Connection} {k : Cursor} {t : Token} {q : Query}

theorem shutDown_addCursor (c : Connection) (k : Cursor) (e : ClientError) :
    (c.addCursor k).2.shutDown e =
      ((c.shutDown e).addCursor (if c.closed then k else k.lose e)).2 := by
  cases hc : c.closed <;> simp [shutDown, addCursor, hc]

/-- A request is written as if the last cursor were not there yet, which is lost with the others if
the stream fails. -/
theorem write_addCursor (c : Connection) (k : Cursor) (q : Query) :
    ∃ k' : Cursor, k'.token = k.token ∧ k'.held = k.held ∧ ((c.write q).1 = none → k' = k) ∧
      (c.addCursor k).2.write q = ((c.write q).1, ((c.write q).2.addCursor k').2) := by
  have hwriter : (c.addCursor k).2.writer = c.writer := rfl
  unfold write
  cases hp : q.payload with
  | error e => exact ⟨k, rfl, rfl, fun _ => rfl, rfl⟩
  | ok payload =>
    simp only [hwriter]
    cases hs : c.writer.send ⟨q.token, payload⟩ with
    | mk r w =>
      cases r with
      | none => exact ⟨k, rfl, rfl, fun _ => rfl, rfl⟩
      | some e =>
        dsimp only
        by_cases hfatal : (ClientError.ofFraming e).isFatal = true
        · refine ⟨if c.closed then k else k.lose (.ofFraming e), ?_, ?_, nofun, ?_⟩
          · split <;> simp
          · split <;> simp
          · rw [if_pos hfatal, if_pos hfatal]
            exact congrArg (Prod.mk _) (shutDown_addCursor { c with writer := w } k _)
        · rw [if_neg hfatal, if_neg hfatal]
          exact ⟨k, rfl, rfl, nofun, rfl⟩

theorem length_write (c : Connection) (q : Query) :
    (c.write q).2.cursors.length = c.cursors.length := by
  unfold write shutDown
  split
  · rfl
  split
  · rfl
  · dsimp only
    split
    · split <;> simp
    · rfl

/-- Nobody is registered under the token. -/
def Free (c : Connection) (t : Token) : Prop :=
  c.cursors.map (·.deregister t) = c.cursors

theorem free_deregister (c : Connection) (t : Token) : Free (c.deregister t) t := by
  simp [Free, deregister]

theorem Free.shutDown (h : Free c t) (e : ClientError) : Free (c.shutDown e) t := by
  unfold Connection.shutDown
  split
  · exact h
  · have hlost : (c.cursors.map (·.lose e)).map (·.deregister t) = c.cursors.map (·.lose e) := by
      rw [← h]
      simp
    exact hlost

theorem Free.write (h : Free c t) (q : Query) : Free (c.write q).2 t := by
  unfold Connection.write
  split
  · exact h
  split
  · exact h
  next e w _ =>
    have hw : Free { c with writer := w } t := h
    dsimp only
    split
    · exact hw.shutDown _
    · exact hw

/-- Taking a registration back leaves the connection as if it had not been made. -/
theorem forget_addCursor (h : Free c k.token) (hk : k.held = false) :
    ((c.addCursor k).2.deregister k.token).forget c.cursors.length = c := by
  have hgone : k.deregister k.token = { k with registered := false } := if_pos rfl
  have hadded : (c.addCursor k).2.deregister k.token =
      (c.addCursor { k with registered := false }).2 := by
    simp only [Connection.deregister, addCursor, List.map_append, List.map_cons, List.map_nil,
      hgone, show c.cursors.map (·.deregister k.token) = c.cursors from h]
  rw [hadded]
  simp [forget, addCursor, hk, List.eraseIdx_append_of_length_le]

theorem handOver_addCursor (c : Connection) (k : Cursor) :
    (c.addCursor k).2.handOver c.cursors.length = (c.addCursor { k with held := true }).2 := by
  have hlast : (c.cursors ++ [k]).modify c.cursors.length (fun k => { k with held := true }) =
      c.cursors ++ [{ k with held := true }] := by
    rw [List.modify_eq_take_cons_drop (by simp)]
    simp
  simp only [handOver, addCursor, hlast]

theorem ask_of_open (ho : c.closed = false) (term : Term) (exclusive : Bool) (q : Token → Query) :
    c.ask term exclusive q =
      let r := { c with tokens := c.tokens.take.2 }.register c.tokens.next term exclusive
      match r.2.write (q c.tokens.next) with
      | (some e, d) => (.error e, (d.deregister c.tokens.next).forget r.1)
      | (none, d) => (.ok r.1, d.handOver r.1) := by
  change (if c.closed = true then _ else _) = _
  rw [if_neg (by rw [ho]; decide)]
  rfl

section

variable {term : Term} {exclusive : Bool} {q : Token → Query} {r : CursorId × Connection}
  {d : Connection}

theorem ask_of_written (ho : c.closed = false)
    (hr : { c with tokens := c.tokens.take.2 }.register c.tokens.next term exclusive = r)
    (hw : r.2.write (q c.tokens.next) = (none, d)) :
    c.ask term exclusive q = (.ok r.1, d.handOver r.1) := by
  subst hr
  simp only [ask_of_open ho, hw]

theorem ask_of_unwritten {e : ClientError} (ho : c.closed = false)
    (hr : { c with tokens := c.tokens.take.2 }.register c.tokens.next term exclusive = r)
    (hw : r.2.write (q c.tokens.next) = (some e, d)) :
    c.ask term exclusive q = (.error e, (d.deregister c.tokens.next).forget r.1) := by
  subst hr
  simp only [ask_of_open ho, hw]

end

/-- Registering a query, writing its request and taking the registration back if that fails comes
to this: whoever had the token loses it, and the cursor is there once the request is written. -/
theorem ask_eq (ho : c.closed = false) (term : Term) (exclusive : Bool) (q : Token → Query) :
    c.ask term exclusive q =
      match ({ c with tokens := c.tokens.take.2 }.deregister c.tokens.next).write
        (q c.tokens.next) with
      | (some e, d) => (.error e, d)
      | (none, d) => (.ok (d.addCursor ⟨c.tokens.next, term, exclusive, .start, true, true⟩).1,
          (d.addCursor ⟨c.tokens.next, term, exclusive, .start, true, true⟩).2) := by
  let c₀ : Connection := { c with tokens := c.tokens.take.2 }.deregister c.tokens.next
  let k : Cursor := ⟨c.tokens.next, term, exclusive, .start, true, false⟩
  have hask : c.ask term exclusive q =
      match (c₀.addCursor k).2.write (q c.tokens.next) with
      | (some e, d) => (.error e, (d.deregister c.tokens.next).forget c₀.cursors.length)
      | (none, d) => (.ok c₀.cursors.length, d.handOver c₀.cursors.length) :=
    ask_of_open ho term exclusive q
  obtain ⟨k', htoken, hheld, hsame, hwrite⟩ := c₀.write_addCursor k (q c.tokens.next)
  have hfree : Free (c₀.write (q c.tokens.next)).2 c.tokens.next :=
    (free_deregister _ _).write _
  have hlength : (c₀.write (q c.tokens.next)).2.cursors.length = c₀.cursors.length :=
    c₀.length_write (q c.tokens.next)
  rw [hask, hwrite, ← hlength]
  change _ = match c₀.write (q c.tokens.next) with | (some e, d) => _ | (none, d) => _
  rcases hr : c₀.write (q c.tokens.next) with ⟨_ | e, d⟩
  · rw [hr] at hsame
    obtain rfl := hsame rfl
    exact congrArg (Prod.mk _) (d.handOver_addCursor k)
  · rw [hr] at hfree
    have hback := forget_addCursor (c := d) (k := k') (by rw [htoken]; exact hfree) hheld
    rw [htoken] at hback
    exact congrArg (Prod.mk _) hback

end Connection
end Reql
