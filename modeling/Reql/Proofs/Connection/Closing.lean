import Reql.Proofs.Connection.Lane
import Reql.Proofs.Connection.Orderly

/-! How a connection comes to be closed: for one cause, which all its cursors are told. -/
namespace Reql
namespace Connection

def Reply.error? : Reply → Option ClientError
  | .read (some (.error e)) | .primed (some (.error e)) => some e
  | .done e => e
  | _ => none

def Action.Sends (c : Connection) : Action → Query → Prop
  | .next id, q => ∃ k, c.cursors[id]? = some k ∧ k.inbox.step.1 = .fetch ∧
      c.isRegistered k.token = true ∧ q = .bare k.token .continue
  | .closeCursor id, q | .dropCursor id, q => ∃ k, c.cursors[id]? = some k ∧
      k.inbox.isRunning = true ∧ k.exclusive = false ∧ q = .bare k.token .stop
  | .continueQuery t, q => c.isRegistered t = true ∧ q = .bare t .continue
  | .stop t, q => q = .bare t .stop
  | a, q => a.request? c = some q

/-- The owner of the cursor at a place gives it up, or is told its end or its error. -/
def Action.Leaves (c : Connection) (id : CursorId) : Action → Prop
  | .closeCursor i | .dropCursor i => i = id
  | .next i => i = id ∧
      ((c.next? id).1 = some (.ok none) ∨ ∃ e, (c.next? id).1 = some (.error e))
  | .prime i => i = id ∧ ∃ e, (c.prime? id).1 = some (.error e)
  | _ => False

/-- The causes for which an action closes a connection, and the error that tells each of them. Who
acts is told of a failed write by the reply, except where a dropped cursor leaves nobody to tell. -/
inductive Cause (c : Connection) : Action → ClientError → Prop where
  | close : Cause c .close .connectionClosed
  | released {a : Action} {id : CursorId} {k : Cursor} (ha : a.Leaves c id)
    (hk : c.cursors[id]? = some k) (he : k.exclusive = true) : Cause c a .connectionClosed
  | ended : Cause c (.report .ended) .connectionClosed
  | failed (e : FramingError) : Cause c (.report (.failed e)) (.ofFraming e)
  | unwritten {a : Action} {q : Query} {reason : String} (hq : a.Sends c q)
    (hw : (c.write q).1 = some (.transport reason))
    (told : (c.act a).1.error? = some (.transport reason) ∨ ∃ id, a = .dropCursor id) :
    Cause c a (.transport reason)

/-- From `c` to `c'` the connection spares all but the cursors in `O`; and if it closes on the way,
then for one error, of which `P` holds and which every other cursor is told that has not been
displaced before. -/
structure Shuts (P : ClientError → Prop) (E : Token → Prop) (O : CursorId → Prop)
    (c c' : Connection) : Prop extends Spares E O c c' where
  told : c.closed = false → c'.closed = true → ∃ e, P e ∧ ∀ i k, c.cursors[i]? = some k → ¬O i →
    c'.cursors[i]? = some (k.lose e) ∨
      E k.token ∧ c'.cursors[i]? = some { k with registered := false }

variable {P : ClientError → Prop} {E : Token → Prop} {O : CursorId → Prop}
  {c c' c'' : Connection}

theorem lose_of_not_registered {k : Cursor} (e : ClientError) (hk : k.registered = false) :
    k.lose e = k := by
  rw [Cursor.lose, if_neg (Bool.eq_false_iff.mp hk)]

theorem Spares.shuts (h : Spares E O c c') (hc : c'.closed = c.closed) : Shuts P E O c c' where
  toSpares := h
  told ho hc' := by
    rw [hc, ho] at hc'
    cases hc'

namespace Shuts

theorem trans (h : Shuts P E O c c') (h' : Shuts P E O c' c'') : Shuts P E O c c'' where
  toSpares := h.toSpares.trans h'.toSpares
  told ho hc := by
    cases hc' : c'.closed with
    | true =>
      -- The first half has closed it, and nothing changes for those who have been told.
      obtain ⟨e, he, htold⟩ := h.told ho hc'
      have hnone : ∀ k ∈ c'.cursors, k.registered = false :=
        (h.lost hc').resolve_left (by rw [ho]; decide)
      have hkeep {i : CursorId} {k' : Cursor} (hk' : c'.cursors[i]? = some k') (hi : ¬O i) :
          c''.cursors[i]? = some k' := by
        obtain ⟨k'', hk'', -, -, hb⟩ := h'.cursors i k' hk'
        rw [hk'', (hb hi).eq_of_not_registered (hnone k' (List.mem_of_getElem? hk'))]
      refine ⟨e, he, fun i k hk hi => ?_⟩
      rcases htold i k hk hi with hk' | ⟨ht, hk'⟩
      · exact Or.inl (hkeep hk' hi)
      · exact Or.inr ⟨ht, hkeep hk' hi⟩
    | false =>
      obtain ⟨e, he, htold⟩ := h'.told hc' hc
      refine ⟨e, he, fun i k hk hi => ?_⟩
      obtain ⟨k', hk', htok, -, hb⟩ := h.cursors i k hk
      have hnext := htold i k' hk' hi
      cases hb hi with
      | same => exact hnext
      | displaced ht _ =>
        rw [lose_of_not_registered e rfl] at hnext
        exact Or.inr ⟨ht, hnext.elim id And.right⟩
      | lost _ hcl _ =>
        rw [hc'] at hcl
        cases hcl

end Shuts

variable (c)

theorem getElem?_shutDown (ho : c.closed = false) (e : ClientError) {i : CursorId} {k : Cursor}
    (hk : c.cursors[i]? = some k) : (c.shutDown e).cursors[i]? = some (k.lose e) := by
  rw [shutDown, if_neg (by rw [ho]; decide), List.getElem?_map, hk]
  rfl

theorem shutDown_shuts {e : ClientError} (he : P e) : Shuts P E O c (c.shutDown e) where
  toSpares := c.shutDown_spares e
  told ho _ := ⟨e, he, fun _ _ hk _ => Or.inl (c.getElem?_shutDown ho e hk)⟩

theorem closeWriter_closed : c.closeWriter.closed = c.closed := by
  unfold closeWriter
  split <;> rfl

theorem close_shuts (he : P .connectionClosed) : Shuts P E O c c.close :=
  (c.shutDown_shuts he).trans ((closeWriter_spares _).shuts (closeWriter_closed _))

theorem release_shuts (he : P .connectionClosed) : Shuts P E O c c.release := by
  unfold release
  split
  · exact (Spares.refl c).shuts rfl
  · exact c.close_shuts he

theorem deregister_shuts {t : Token} (ht : E t) : Shuts P E O c (c.deregister t) :=
  (c.deregister_spares ht).shuts rfl

theorem modifyInbox_shuts {id : CursorId} (hid : O id) (f : Inbox → Inbox) :
    Shuts P E O c (c.modifyInbox id f) :=
  (c.modifyInbox_spares hid f).shuts rfl

theorem letGo_shuts {id : CursorId} (hid : O id) : Shuts P E O c (c.letGo id) :=
  (c.letGo_spares hid).shuts (collect_closed _)

theorem finish_shuts {id : CursorId} {k : Cursor} (hk : c.cursors[id]? = some k) (ht : E k.token)
    (he : k.exclusive = true → P .connectionClosed) : Shuts P E O c (c.finish id) := by
  have h : Shuts P E O c (c.deregister k.token) := c.deregister_shuts ht
  simp only [finish, hk]
  split
  · exact h.trans (release_shuts _ (he ‹_›))
  · exact h

variable {c}

/-- Whether a request is written depends on the writer alone. -/
theorem write_of_writer_eq {d : Connection} {q : Query} {r : Option ClientError}
    (hr : (d.write q).1 = r) (h : d.writer = c.writer) : (c.write q).1 = r := by
  rw [← hr]
  unfold write
  rw [h]
  split
  · rfl
  · split <;> rfl

theorem write_shuts (q : Query) (he : ∀ reason, (c.write q).1 = some (.transport reason) →
    P (.transport reason)) : Shuts P E O c (c.write q).2 := by
  obtain ⟨w, hw, ⟨-, h⟩ | ⟨e, -, h⟩ | ⟨reason, h⟩⟩ := c.write_cases q
  · have hs : Spares E O c { c with writer := w, written := c.written ++ [q] } :=
      .of_cursors_eq rfl hw rfl rfl
    rw [h]
    exact hs.shuts rfl
  · have hs : Spares E O c { c with writer := w } := .of_cursors_eq rfl hw rfl rfl
    rw [h]
    exact hs.shuts rfl
  · have hs : Spares E O c { c with writer := w } := .of_cursors_eq rfl hw rfl rfl
    have hP := he reason (by rw [h])
    rw [h]
    exact (hs.shuts rfl).trans (shutDown_shuts _ hP)

theorem stop_shuts (t : Token)
    (he : ∀ reason, (c.write (.bare t .stop)).1 = some (.transport reason) →
      (c.stop t).1 = some (.transport reason) → P (.transport reason)) :
    Shuts P E O c (c.stop t).2 := by
  unfold stop at he ⊢
  split
  · exact (Spares.refl c).shuts rfl
  next ho =>
    rw [if_neg ho] at he
    exact write_shuts _ fun reason hr => he reason hr hr

theorem continueQuery_shuts (t : Token)
    (he : ∀ reason, c.isRegistered t = true →
      (c.write (.bare t .continue)).1 = some (.transport reason) →
        (c.continueQuery t).1 = some (.transport reason) → P (.transport reason)) :
    Shuts P E O c (c.continueQuery t).2 := by
  unfold continueQuery at he ⊢
  split
  · exact (Spares.refl c).shuts rfl
  next ho =>
    rw [if_neg ho] at he
    split
    next hr =>
      rw [if_pos hr] at he
      exact write_shuts _ fun reason hw => he reason hr hw hw
    · exact (Spares.refl c).shuts rfl

theorem act_next (id : CursorId) : (c.act (.next id)).1 = .read (c.next? id).1 := rfl

theorem act_closeCursor (id : CursorId) :
    (c.act (.closeCursor id)).1 = .done (c.closeCursor id).1 := rfl

/-- An inbox says nothing about registrations. -/
theorem isRegistered_modifyInbox (c : Connection) (id : CursorId) (f : Inbox → Inbox) (t : Token) :
    (c.modifyInbox id f).isRegistered t = c.isRegistered t := by
  have hmap : (c.modifyInbox id f).cursors.map (fun k => k.registered && k.token == t) =
      c.cursors.map fun k => k.registered && k.token == t := by
    refine List.ext_getElem? fun i => ?_
    simp only [modifyInbox, List.getElem?_map, List.getElem?_modify]
    cases c.cursors[i]? with
    | none => rfl
    | some k =>
      by_cases hi : id = i
      · simp [hi]
      · simp [hi]
  have hany (l : List Cursor) : (l.any fun k => k.registered && k.token == t) =
      (l.map fun k => k.registered && k.token == t).any fun b => b := by
    rw [List.any_map]
    rfl
  rw [isRegistered, isRegistered, hany, hany, hmap]

/-- The acting cursor after its request for more, as far as it concerns the connection. -/
theorem continueQuery_exclusive {id : CursorId} {k : Cursor} (hk : c.cursors[id]? = some k)
    (t : Token) : ∃ k', (c.continueQuery t).2.cursors[id]? = some k' ∧ k'.token = k.token ∧
      k'.exclusive = k.exclusive := by
  have hs : Spares (fun _ => False) (fun _ => False) c (c.continueQuery t).2 :=
    continueQuery_spares c t
  obtain ⟨k', hk', ht, -, hb⟩ := hs.cursors id k hk
  refine ⟨k', hk', ht, ?_⟩
  cases hb (fun h => h) with
  | same => rfl
  | displaced h => cases h
  | lost e _ hr =>
    rw [Cursor.lose, if_pos hr]

/-- A call of `next` by what the inbox offers. -/
theorem next?_of_step {id : CursorId} {k : Cursor} {offer : Inbox.Step} {s : Inbox}
    (hk : c.cursors[id]? = some k) (hstep : k.inbox.step = (offer, s)) :
    c.next? id = match offer with
      | .value v => (some (.ok (some v)), c.modifyInbox id fun _ => s)
      | .ended => (some (.ok none), (c.modifyInbox id fun _ => s).finish id)
      | .failed e => (some (.error e), (c.modifyInbox id fun _ => s).finish id)
      | .wait => (none, c)
      | .fetch => match (c.modifyInbox id fun _ => s).continueQuery k.token with
        | (none, c) => (none, c)
        | (some e, c) => (some (.error e), (c.modifyInbox id Inbox.abandon).finish id) := by
  simp only [next?, hk, hstep]
  cases offer <;> rfl

theorem next?_shuts (c : Connection) (id : CursorId) : Shuts (Cause c (.next id))
    (Action.Ends c (.next id)) (Action.Owns c (.next id)) c (c.next? id).2 := by
  have hown : Action.Owns c (.next id) id := Or.inl rfl
  cases hk : c.cursors[id]? with
  | none =>
    simp only [next?, hk]
    exact (Spares.refl c).shuts rfl
  | some k =>
    have hend : Action.Ends c (.next id) k.token := ⟨k, hk, rfl⟩
    have hset (s : Inbox) := getElem?_modifyInbox hk fun _ => s
    have hrel (hr : (c.next? id).1 = some (.ok none) ∨ ∃ e, (c.next? id).1 = some (.error e))
        (he : k.exclusive = true) : Cause c (.next id) .connectionClosed :=
      .released ⟨rfl, hr⟩ hk he
    obtain ⟨offer, s, hstep⟩ : ∃ offer s, k.inbox.step = (offer, s) := ⟨_, _, rfl⟩
    have hread := next?_of_step hk hstep
    cases offer with
    | value v =>
      rw [hread]
      exact c.modifyInbox_shuts hown fun _ => s
    | ended =>
      have hrel := hrel (Or.inl (by rw [hread]))
      rw [hread]
      exact (c.modifyInbox_shuts hown _).trans (finish_shuts _ (hset s) hend hrel)
    | failed e =>
      have hrel := hrel (Or.inr ⟨e, by rw [hread]⟩)
      rw [hread]
      exact (c.modifyInbox_shuts hown _).trans (finish_shuts _ (hset s) hend hrel)
    | wait =>
      rw [hread]
      exact (Spares.refl c).shuts rfl
    | fetch =>
      have hreply : (c.next? id).1 =
          ((c.modifyInbox id fun _ => s).continueQuery k.token).1.map .error := by
        rw [hread]
        dsimp only
        split
        all_goals next hq => rw [hq] <;> rfl
      have hcont : Shuts (Cause c (.next id)) (Action.Ends c (.next id))
          (Action.Owns c (.next id)) c
          ((c.modifyInbox id fun _ => s).continueQuery k.token).2 := by
        refine (c.modifyInbox_shuts hown fun _ => s).trans
          (continueQuery_shuts _ fun reason hreg hw hr => ?_)
        rw [isRegistered_modifyInbox] at hreg
        have hsends : Action.Sends c (.next id) (.bare k.token .continue) :=
          ⟨k, hk, by rw [hstep], hreg, rfl⟩
        refine .unwritten hsends (write_of_writer_eq hw rfl) (Or.inl ?_)
        rw [act_next, hreply, hr]
        rfl
      obtain ⟨k', hk', ht, hex⟩ := continueQuery_exclusive (hset s) k.token
      rw [hread]
      dsimp only
      split
      next hq =>
        rw [hq] at hcont
        exact hcont
      next hq =>
        rw [hq] at hcont hk' hreply
        refine (hcont.trans (modifyInbox_shuts _ hown _)).trans
          (finish_shuts _ (getElem?_modifyInbox hk' Inbox.abandon) (ht ▸ hend) fun he => ?_)
        exact hrel (Or.inr ⟨_, hreply⟩) (hex ▸ he)

theorem prime?_shuts (c : Connection) (id : CursorId) : Shuts (Cause c (.prime id))
    (Action.Ends c (.prime id)) (Action.Owns c (.prime id)) c (c.prime? id).2 := by
  have hown : Action.Owns c (.prime id) id := Or.inl rfl
  cases hk : c.cursors[id]? with
  | none =>
    simp only [prime?, hk]
    exact (Spares.refl c).shuts rfl
  | some k =>
    have hend : Action.Ends c (.prime id) k.token := ⟨k, hk, rfl⟩
    cases hp : k.inbox.prime with
    | mk r s =>
      cases r with
      | ready | wait =>
        simp only [prime?, hk, hp]
        exact (Spares.refl c).shuts rfl
      | failed e =>
        have hread : c.prime? id =
            (some (.error e), (c.modifyInbox id fun _ => s).finish id) := by
          simp only [prime?, hk, hp]
        have hleaves : Action.Leaves c id (.prime id) := ⟨rfl, e, by rw [hread]⟩
        rw [hread]
        exact (c.modifyInbox_shuts hown _).trans
          (finish_shuts _ (getElem?_modifyInbox hk fun _ => s) hend fun he =>
            .released hleaves hk he)

theorem closeCursor_shuts (c : Connection) (id : CursorId) : Shuts (Cause c (.closeCursor id))
    (Action.Ends c (.closeCursor id)) (Action.Owns c (.closeCursor id)) c
    (c.closeCursor id).2 := by
  have hown : Action.Owns c (.closeCursor id) id := Or.inl rfl
  have hleaves : Action.Leaves c id (.closeCursor id) := rfl
  unfold closeCursor
  split
  · exact (Spares.refl c).shuts rfl
  next k hk =>
    have hend : Action.Ends c (.closeCursor id) k.token := ⟨k, hk, rfl⟩
    have h := (c.modifyInbox_shuts (P := Cause c (.closeCursor id)) hown Inbox.close).trans
      (deregister_shuts _ hend)
    split
    · split
      · exact c.release_shuts (.released hleaves hk ‹_›)
      · exact (Spares.refl c).shuts rfl
    next hopen =>
      split
      · exact h.trans (close_shuts _ (.released hleaves hk ‹_›))
      next hex =>
        split
        · exact h
        next hdone =>
          refine h.trans (stop_shuts _ fun reason hw hr => ?_)
          have hrun : k.inbox.isRunning = true :=
            Inbox.isRunning_iff.mpr ⟨Bool.eq_false_iff.mpr hopen, Bool.eq_false_iff.mpr hdone⟩
          have hsends : Action.Sends c (.closeCursor id) (.bare k.token .stop) :=
            ⟨k, hk, hrun, Bool.eq_false_iff.mpr hex, rfl⟩
          refine .unwritten hsends (write_of_writer_eq hw rfl) (Or.inl ?_)
          rw [act_closeCursor, ← hr]
          simp only [closeCursor, hk, if_neg hopen, if_neg hex, if_neg hdone]
          rfl

theorem dropCursor_shuts (c : Connection) (id : CursorId) : Shuts (Cause c (.dropCursor id))
    (Action.Ends c (.dropCursor id)) (Action.Owns c (.dropCursor id)) c (c.dropCursor id) := by
  have hown : Action.Owns c (.dropCursor id) id := Or.inl rfl
  have hleaves : Action.Leaves c id (.dropCursor id) := rfl
  cases hk : c.cursors[id]? with
  | none =>
    simp only [dropCursor, hk]
    exact (Spares.refl c).shuts rfl
  | some k =>
    have hend : Action.Ends c (.dropCursor id) k.token := ⟨k, hk, rfl⟩
    have h := c.modifyInbox_shuts (P := Cause c (.dropCursor id))
      (E := Action.Ends c (.dropCursor id)) hown Inbox.drop
    have hd := h.trans (deregister_shuts _ hend)
    rw [dropCursor_eq hk]
    split
    next hex =>
      exact (hd.trans (release_shuts _ (.released hleaves hk hex))).trans (letGo_shuts _ hown)
    next hrun hex =>
      refine (hd.trans (stop_shuts _ fun reason hw _ => ?_)).trans (letGo_shuts _ hown)
      have hsends : Action.Sends c (.dropCursor id) (.bare k.token .stop) :=
        ⟨k, hk, hrun, hex, rfl⟩
      exact .unwritten hsends (write_of_writer_eq hw rfl) (Or.inr ⟨id, rfl⟩)
    next hex =>
      exact (h.trans (release_shuts _ (.released hleaves hk hex))).trans (letGo_shuts _ hown)
    · exact h.trans (letGo_shuts _ hown)

/-- What closing a connection by an action means for it and for the cursors of others. -/
def Told (c : Connection) (a : Action) (e : ClientError) : Prop :=
  Cause c a e ∧ ∀ i k, c.cursors[i]? = some k → ¬a.Owns c i →
    (c.after a).cursors[i]? = some (k.lose e) ∨
      a.Ends c k.token ∧ (c.after a).cursors[i]? = some { k with registered := false }

/-- A request for a cursor closes the connection only if it cannot be written. -/
theorem told_request {a : Action} {q : Query} (hq : a.request? c = some q)
    (ho : c.closed = false) (hc : (c.after a).closed = true) : ∃ e, Told c a e := by
  obtain ⟨k, -, hact⟩ := c.act_of_request ho hq
  have hends := c.ends_of_request hq
  have hsends : a.Sends c q := by
    cases a with
    | query | noreplyWait => exact hq
    | _ => cases hq
  cases hr : (c.prepare a.isNoreply).write q with
  | mk r d =>
    rw [hr] at hact
    cases r with
    | none =>
      -- The cursor is added to a connection that is as open as before.
      have hd : d.closed = (c.prepare a.isNoreply).closed := by
        obtain ⟨w, -, ⟨-, h⟩ | ⟨e, -, h⟩ | ⟨reason, h⟩⟩ := (c.prepare a.isNoreply).write_cases q <;>
          rw [hr] at h
        · rw [(Prod.mk.inj h).2]
        · cases (Prod.mk.inj h).1
        · cases (Prod.mk.inj h).1
      rw [after, hact] at hc
      change d.closed = true at hc
      rw [hd, prepare_closed, ho] at hc
      cases hc
    | some e =>
      have hafter : c.after a = ((c.prepare a.isNoreply).write q).2 := by rw [after, hact, hr]; rfl
      have htold : (c.act a).1.error? = some e := by
        rw [hact]
        rfl
      have hshuts : Shuts (Cause c a) (a.Ends c) (a.Owns c) c (c.after a) := by
        have hprepare : Spares (a.Ends c) (a.Owns c) c (c.prepare a.isNoreply) :=
          c.prepare_spares hends
        rw [hafter]
        refine (hprepare.shuts (c.prepare_closed _)).trans (write_shuts q fun reason hw => ?_)
        obtain rfl : e = .transport reason := by
          rw [hr] at hw
          exact Option.some.inj hw
        exact .unwritten hsends (write_of_writer_eq hw (c.prepare_writer _)) (Or.inl htold)
      exact hshuts.told ho hc

/-- Whatever action closes a connection, there is one cause, and all but the one who acts are
told. -/
theorem told_after {a : Action} (ho : c.closed = false) (hc : (c.after a).closed = true) :
    ∃ e, Told c a e := by
  have hquiet (h : (c.after a).closed = c.closed) : ∃ e, Told c a e := by
    rw [h, ho] at hc
    cases hc
  cases a with
  | query term options exclusive => exact told_request rfl ho hc
  | noreplyWait => exact told_request rfl ho hc
  | next id => exact (c.next?_shuts id).told ho hc
  | prime id => exact (c.prime?_shuts id).told ho hc
  | closeCursor id => exact (c.closeCursor_shuts id).told ho hc
  | dropCursor id => exact (c.dropCursor_shuts id).told ho hc
  | continueQuery t =>
    refine (continueQuery_shuts t fun reason hreg hw hr => ?_).told ho hc
    have hsends : Action.Sends c (.continueQuery t) (.bare t .continue) := ⟨hreg, rfl⟩
    exact .unwritten hsends hw (Or.inl hr)
  | stop t =>
    refine (stop_shuts t fun reason hw hr => ?_).told ho hc
    exact .unwritten (a := .stop t) rfl hw (Or.inl hr)
  | close => exact (c.close_shuts .close).told ho hc
  | drop => exact hquiet (collect_closed _)
  | breakWriting reason => exact hquiet rfl
  | report event =>
    cases event with
    | frame f => exact hquiet rfl
    | failed e => exact (c.shutDown_shuts (.failed e)).told ho hc
    | ended => exact (c.shutDown_shuts .ended).told ho hc

end Connection
end Reql
