import Mathlib.Logic.Relation
import Reql.Proofs.Connection.Effect

/-! The parts of which all actions on a connection are made. -/
namespace Reql.Connection

/-- One part of an action: the books are kept, which concerns neither the stream nor whether the
connection is closed; a request is written; the connection is closed; or something happens to its
writing direction. -/
inductive Part (c : Connection) : Connection → Prop where
  | kept {c' : Connection} (hclosed : c'.closed = c.closed) (hwriter : c'.writer = c.writer)
    (hwritten : c'.written = c.written) (hended : c'.writeClosed = c.writeClosed) : Part c c'
  | write (q : Query) : Part c (c.write q).2
  | shutDown (e : ClientError) : Part c (c.shutDown e)
  | closeWriter : Part c c.closeWriter
  | hangUp : Part c { c with writer.link := { c.writer.link with ended := true } }
  | breakWriting (reason : String) : Part c (c.breakWriting reason)

/-- One part after the other leads from `c` to `c'`. -/
def Parts (c c' : Connection) : Prop :=
  Relation.ReflTransGen Part c c'

variable {c c' c'' : Connection}

@[refl] theorem Parts.refl (c : Connection) : Parts c c :=
  Relation.ReflTransGen.refl

theorem Parts.trans (h : Parts c c') (h' : Parts c' c'') : Parts c c'' :=
  Relation.ReflTransGen.trans h h'

/-- What is kept by every part is kept by all that is made of them. -/
theorem Parts.induction {P : Connection → Prop} (hpart : ∀ c c', Part c c' → P c → P c')
    (h : Parts c c') (hc : P c) : P c' := by
  induction h with
  | refl => exact hc
  | tail _ hlast ih => exact hpart _ _ hlast ih

variable (c)

theorem deregister_parts (t : Token) : Parts c (c.deregister t) :=
  .single (.kept rfl rfl rfl rfl)

theorem modifyInbox_parts (id : CursorId) (f : Inbox → Inbox) : Parts c (c.modifyInbox id f) :=
  .single (.kept rfl rfl rfl rfl)

theorem close_parts : Parts c c.close :=
  Parts.trans (.single (.shutDown .connectionClosed)) (.single .closeWriter)

theorem release_parts : Parts c c.release := by
  unfold release
  split
  · rfl
  · exact c.close_parts

theorem finish_parts (id : CursorId) : Parts c (c.finish id) := by
  unfold finish
  split
  · rfl
  · next k _ =>
    dsimp only
    split
    · exact (c.deregister_parts k.token).trans (release_parts _)
    · exact c.deregister_parts k.token

theorem continueQuery_parts (t : Token) : Parts c (c.continueQuery t).2 := by
  unfold continueQuery
  split
  · rfl
  · split
    · exact .single (.write _)
    · rfl

theorem stop_parts (t : Token) : Parts c (c.stop t).2 := by
  unfold stop
  split
  · rfl
  · exact .single (.write _)

theorem collect_parts : Parts c c.collect := by
  unfold collect
  split
  · rfl
  · exact .single .hangUp

theorem letGo_parts (id : CursorId) : Parts c (c.letGo id) := by
  have h : Parts c { c with cursors := c.cursors.modify id fun k => { k with held := false } } :=
    .single (.kept rfl rfl rfl rfl)
  exact h.trans (collect_parts _)

theorem drop_parts : Parts c c.drop := by
  have h : Parts c { c with held := false } := .single (.kept rfl rfl rfl rfl)
  exact h.trans (collect_parts _)

theorem prepare_parts (noreply : Bool) : Parts c (c.prepare noreply) :=
  .single (.kept (by simp) (by simp) (by simp) (by simp))

theorem request_parts {a : Action} {q : Query} (hq : a.request? c = some q) :
    Parts c (c.after a) := by
  cases ho : c.closed with
  | true =>
    rw [after, c.act_of_closed ho hq]
  | false =>
    obtain ⟨k, -, hact⟩ := c.act_of_request ho hq
    have hwrite : Parts c ((c.prepare a.isNoreply).write q).2 :=
      (c.prepare_parts a.isNoreply).trans (.single (.write q))
    rw [after, hact]
    cases hr : (c.prepare a.isNoreply).write q with
    | mk r d =>
      rw [hr] at hwrite
      cases r with
      | none => exact hwrite.trans (.single (.kept rfl rfl rfl rfl))
      | some e => exact hwrite

theorem next?_parts (id : CursorId) : Parts c (c.next? id).2 := by
  have hset (s : Inbox) : Parts c (c.modifyInbox id fun _ => s) := c.modifyInbox_parts id _
  unfold next?
  split
  · rfl
  · next k _ =>
    split
    · exact hset _
    · exact (hset _).trans (finish_parts _ id)
    · exact (hset _).trans (finish_parts _ id)
    · rfl
    · next s _ =>
      have hcontinue := (hset s).trans (continueQuery_parts _ k.token)
      split
      next d hq =>
        rw [hq] at hcontinue
        exact hcontinue
      next e d hq =>
        rw [hq] at hcontinue
        exact (hcontinue.trans (modifyInbox_parts d id Inbox.abandon)).trans (finish_parts _ id)

theorem prime?_parts (id : CursorId) : Parts c (c.prime? id).2 := by
  unfold prime?
  split
  · rfl
  · split
    · rfl
    · exact (c.modifyInbox_parts id _).trans (finish_parts _ id)
    · rfl

theorem closeCursor_parts (id : CursorId) : Parts c (c.closeCursor id).2 := by
  unfold closeCursor
  split
  · rfl
  · next k _ =>
    have h := (c.modifyInbox_parts id Inbox.close).trans (deregister_parts _ k.token)
    split
    · split
      · exact c.release_parts
      · rfl
    · dsimp only
      split
      · exact h.trans (close_parts _)
      · split
        · exact h
        · exact h.trans (stop_parts _ _)

theorem dropCursor_parts (id : CursorId) : Parts c (c.dropCursor id) := by
  cases hk : c.cursors[id]? with
  | none =>
    simp only [dropCursor, hk]
    rfl
  | some k =>
    have hdrop := c.modifyInbox_parts id Inbox.drop
    have hgone := hdrop.trans (deregister_parts _ k.token)
    rw [dropCursor_eq hk]
    split
    · exact (hgone.trans (release_parts _)).trans (letGo_parts _ id)
    · exact (hgone.trans (stop_parts _ _)).trans (letGo_parts _ id)
    · exact (hdrop.trans (release_parts _)).trans (letGo_parts _ id)
    · exact hdrop.trans (letGo_parts _ id)

/-- Every action is made of these parts. -/
theorem parts_after (a : Action) : Parts c (c.after a) := by
  cases a with
  | query term options exclusive => exact c.request_parts rfl
  | noreplyWait => exact c.request_parts rfl
  | next id => exact c.next?_parts id
  | prime id => exact c.prime?_parts id
  | closeCursor id => exact c.closeCursor_parts id
  | dropCursor id => exact c.dropCursor_parts id
  | continueQuery t => exact c.continueQuery_parts t
  | stop t => exact c.stop_parts t
  | close => exact c.close_parts
  | drop => exact c.drop_parts
  | report event =>
    cases event with
    | frame f => exact .single (.kept rfl rfl rfl rfl)
    | failed e => exact .single (.shutDown _)
    | ended => exact .single (.shutDown _)
  | breakWriting reason => exact .single (.breakWriting reason)

/-- What is kept by every part holds in every state that a new connection reaches. -/
theorem run_of_parts {P : Connection → Prop} (hpart : ∀ c c', Part c c' → P c → P c') {s : Settings}
    (hstart : P (start s)) (as : List Action) : P ((start s).run as) :=
  run_induction (fun c a => (c.parts_after a).induction hpart) hstart as

end Reql.Connection
