import Reql.Proofs.Connection.Closing
import Reql.Proofs.Connection.Idle
import Reql.Proofs.Cursor.Waiting

/-! A call that is over leaves no registration behind. -/
namespace Reql.Connection

variable {c c' : Connection} {id : CursorId} {k : Cursor} {t : Token} {call : Call} {o : Outcome}

theorem isRegistered_eq_false :
    c.isRegistered t = false ↔ ∀ k ∈ c.cursors, k.token = t → k.registered = false := by
  simp only [isRegistered, List.any_eq_false, Bool.and_eq_true, beq_iff_eq, not_and]
  exact forall₂_congr fun k _ => ⟨fun h ht => by
    cases hr : k.registered with
    | false => rfl
    | true => exact absurd ht (h hr), fun h hr ht => by rw [h ht] at hr; cases hr⟩

/-- Nobody becomes registered. -/
theorem Spares.isRegistered {E : Token → Prop} {O : CursorId → Prop} (h : Spares E O c c')
    (hc : c.isRegistered t = false) : c'.isRegistered t = false := by
  rw [isRegistered_eq_false] at hc ⊢
  intro k' hk' ht
  obtain ⟨i, hi⟩ := List.mem_iff_getElem?.mp hk'
  obtain ⟨k, hk, htoken, hr⟩ := h.before hi
  have hnot := hc k (List.mem_of_getElem? hk) (htoken.symm.trans ht)
  cases hr' : k'.registered with
  | false => rfl
  | true => exact absurd (hr hr') (by rw [hnot]; decide)

theorem deregister_isRegistered (c : Connection) (t : Token) :
    (c.deregister t).isRegistered t = false :=
  isRegistered_eq_false.mpr fun _ hk ht => c.registered_of_mem_deregister hk ht

/-- Who is done with a cursor gives its token back. -/
theorem finish_isRegistered (hk : c.cursors[id]? = some k) :
    (c.finish id).isRegistered k.token = false := by
  have h := c.deregister_isRegistered k.token
  simp only [finish, hk]
  split
  · exact (release_spares (E := fun _ => True) (O := fun _ => True) _).isRegistered h
  · exact h

theorem next?_isRegistered (hk : c.cursors[id]? = some k)
    (h : (c.next? id).1 = some (.ok none) ∨ ∃ e, (c.next? id).1 = some (.error e)) :
    (c.next? id).2.isRegistered k.token = false := by
  have hset (s : Inbox) := finish_isRegistered (getElem?_modifyInbox hk fun _ => s)
  obtain ⟨offer, s, hstep⟩ : ∃ offer s, k.inbox.step = (offer, s) := ⟨_, _, rfl⟩
  rw [next?_of_step hk hstep] at h ⊢
  cases offer with
  | value v | wait => rcases h with h | ⟨e, h⟩ <;> cases h
  | ended | failed e => exact hset s
  | fetch =>
    have hk' : (c.modifyInbox id fun _ => s).cursors[id]? = some { k with inbox := s } :=
      getElem?_modifyInbox hk fun _ => s
    obtain ⟨l, hl, ht, -⟩ := continueQuery_exclusive hk' k.token
    dsimp only at h ⊢
    rcases hcontinue : (c.modifyInbox id fun _ => s).continueQuery k.token with ⟨_ | e, d⟩
    · rw [hcontinue] at h
      rcases h with h | ⟨e, h⟩ <;> cases h
    · rw [hcontinue] at hl
      have hfinish := finish_isRegistered (getElem?_modifyInbox hl Inbox.abandon)
      rwa [show l.token = k.token from ht] at hfinish

/-- Waiting for the first answer, by what the inbox says. -/
theorem prime?_eq {r : Inbox.Primed} {s : Inbox} (hk : c.cursors[id]? = some k)
    (hprime : k.inbox.prime = (r, s)) : c.prime? id = match r with
      | .ready => (some (.ok ()), c)
      | .failed e => (some (.error e), (c.modifyInbox id fun _ => s).finish id)
      | .wait => (none, c) := by
  simp only [prime?, hk, hprime]
  cases r <;> rfl

theorem closed_of_prime {s s' : Inbox} {e : ClientError} (h : s.prime = (.failed e, s')) :
    s'.closed = true := by
  obtain ⟨-, -, rfl⟩ := Inbox.step_eq_failed.mp (prime_eq_failed h)
  rfl

theorem closeCursor_isRegistered (hk : c.cursors[id]? = some k) (hc : k.inbox.closed = false) :
    (c.closeCursor id).2.isRegistered k.token = false := by
  have h := (c.modifyInbox id Inbox.close).deregister_isRegistered k.token
  simp only [closeCursor, hk, hc, Bool.false_eq_true, if_false]
  split
  · exact (close_spares (E := fun _ => True) (O := fun _ => True) _).isRegistered h
  · split
    · exact h
    · exact (stop_spares (E := fun _ => True) (O := fun _ => True) _ _).isRegistered h

theorem dropCursor_isRegistered (id : CursorId) (h : c.isRegistered t = false) :
    (c.dropCursor id).isRegistered t = false :=
  (dropCursor_spares (E := fun _ => True) (O := fun _ => True) c trivial
    fun _ _ => trivial).isRegistered h

/-! ### What closing a cursor comes to -/

theorem stop_eq (c : Connection) (t : Token) :
    (c.stop t).1 = (if c.closed then none else (c.write (.bare t .stop)).1) ∧
      (c.stop t).2.written =
        c.written ++ if c.closed then [] else sent (.bare t .stop) (c.write (.bare t .stop)).1 := by
  cases hc : c.closed with
  | true => simp [stop, hc]
  | false => simpa [stop, hc] using (c.write_sent (.bare t .stop)).2

/-- What comes of a request to stop depends on the stream alone. -/
theorem stop_congr (hc : c'.closed = c.closed) (hw : c'.writer = c.writer) :
    (c'.stop t).1 = (c.stop t).1 := by
  rw [(c'.stop_eq t).1, (c.stop_eq t).1, hc, write_of_writer_eq rfl hw.symm]

/-- Closing a cursor asks the server to stop if it has not finished, and tells how that went. -/
theorem closeCursor_reply (hk : c.cursors[id]? = some k) (hc : k.inbox.closed = false) :
    (c.closeCursor id).1 =
      if k.exclusive = false ∧ k.inbox.serverDone = false then (c.stop k.token).1 else none := by
  have hstop : (((c.modifyInbox id Inbox.close).deregister k.token).stop k.token).1 =
      (c.stop k.token).1 := stop_congr rfl rfl
  simp only [closeCursor, hk, hc, Bool.false_eq_true, if_false]
  cases k.exclusive <;> cases k.inbox.serverDone <;> simp [hstop]

theorem closeCursor_written (hk : c.cursors[id]? = some k) (hc : k.inbox.closed = false) :
    (c.closeCursor id).2.written =
      if k.exclusive = false ∧ k.inbox.serverDone = false then (c.stop k.token).2.written
      else c.written := by
  have hreleased : (c.closeCursor id).2.written = _ :=
    releases_written (a := .closeCursor id) hk (.inl rfl)
  simpa [Inbox.isRunning, hc] using hreleased

/-- An owner who closes a cursor is done with it. -/
theorem closed_of_closeCursor (hk : c.cursors[id]? = some k) (hs : k.Sound) :
    ∃ l, (c.closeCursor id).2.cursors[id]? = some l ∧ l.inbox.closed = true := by
  obtain ⟨l, hl, hstep⟩ := step_closeCursor hk hs
  exact ⟨l, hl, hstep.inbox_closed⟩

/-- Nothing is left of a query with the token `t` and the cursor at `id`. -/
def Over (c : Connection) (id : CursorId) (t : Token) : Prop :=
  c.isRegistered t = false ∧
    ∃ k, c.cursors[id]? = some k ∧ k.registered = false ∧ k.inbox.isFinished = true

/-- A cursor with which its owner is done is dropped without a trace. -/
theorem dropCursor_of_closed (hk : c.cursors[id]? = some k) (hs : k.Sound)
    (hc : k.inbox.closed = true) (ht : c.isRegistered t = false) :
    (c.dropCursor id).written = c.written ∧ (c.dropCursor id).Over id t := by
  have hreleased := releases_written hk (.inr rfl : (Action.dropCursor id).Releases id)
  rw [if_neg (by simp [Inbox.isRunning, hc])] at hreleased
  obtain ⟨l, hl, hstep⟩ := step_dropCursor hk hs
  refine ⟨hreleased, dropCursor_isRegistered id ht, l, hl, ?_⟩
  cases hstep
  exact ⟨rfl, rfl⟩

/-- An error that is handed out before any value is the end of its cursor. -/
theorem dropped_of_prime {s : Inbox} {e : ClientError} (hk : c.cursors[id]? = some k)
    (hprime : k.inbox.prime = (.failed e, s)) :
    let d := ((c.modifyInbox id fun _ => s).finish id).dropCursor id
    d.written = c.written ∧ d.Over id k.token := by
  have hset := getElem?_modifyInbox hk fun _ => s
  have hregistered := finish_isRegistered hset
  obtain ⟨hwritten, hover⟩ :=
    dropCursor_of_closed (getElem?_finish hset) nofun (closed_of_prime hprime) hregistered
  exact ⟨hwritten.trans (finish_quiet _ _).written, hover⟩

end Reql.Connection
