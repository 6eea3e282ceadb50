import Reql.Proofs.Connection.History

/-! The tokens that an action takes and the requests that it writes. -/
namespace Reql

def Query.isOpening (q : Query) : Bool :=
  q.type == .start || q.type == .noreplyWait

namespace Connection

open Cursor (Event)

/-- No token is taken and nothing is written. -/
structure Quiet (c c' : Connection) : Prop where
  tokens : c'.tokens = c.tokens
  written : c'.written = c.written

variable {c c' c'' : Connection}

@[refl] theorem Quiet.refl (c : Connection) : Quiet c c := ⟨rfl, rfl⟩

theorem Quiet.trans (h : Quiet c c') (h' : Quiet c' c'') : Quiet c c'' :=
  ⟨h'.tokens.trans h.tokens, h'.written.trans h.written⟩

theorem shutDown_quiet (c : Connection) (e : ClientError) : Quiet c (c.shutDown e) :=
  ⟨c.shutDown_tokens e, c.shutDown_written e⟩

theorem close_quiet (c : Connection) : Quiet c c.close := by
  refine (c.shutDown_quiet .connectionClosed).trans ?_
  unfold close closeWriter
  split
  · rfl
  · exact ⟨rfl, rfl⟩

theorem release_quiet (c : Connection) : Quiet c c.release := by
  unfold release
  split
  · rfl
  · exact c.close_quiet

theorem finish_quiet (c : Connection) (id : CursorId) : Quiet c (c.finish id) := by
  unfold finish
  split
  · rfl
  next k _ =>
    have h : Quiet c (c.deregister k.token) := ⟨rfl, rfl⟩
    dsimp only
    split
    · exact h.trans (release_quiet _)
    · exact h

theorem collect_quiet (c : Connection) : Quiet c c.collect := by
  unfold collect
  split <;> exact ⟨rfl, rfl⟩

theorem letGo_quiet (c : Connection) (id : CursorId) : Quiet c (c.letGo id) := by
  have h : Quiet c { c with cursors := c.cursors.modify id fun k => { k with held := false } } :=
    ⟨rfl, rfl⟩
  exact h.trans (collect_quiet _)

theorem handle_quiet (c : Connection) (event : FrameEvent) : Quiet c (c.handle event) := by
  cases event with
  | frame f => exact ⟨rfl, rfl⟩
  | failed e => exact c.shutDown_quiet _
  | ended => exact c.shutDown_quiet _

theorem prime?_quiet (c : Connection) (id : CursorId) : Quiet c (c.prime? id).2 := by
  unfold prime?
  split
  · rfl
  · split
    · rfl
    next s _ =>
      have h : Quiet c (c.modifyInbox id fun _ => s) := ⟨rfl, rfl⟩
      exact h.trans (finish_quiet _ id)
    · rfl

/-- What of a request is written. -/
def sent (q : Query) : Option ClientError → List Query
  | none => [q]
  | some _ => []

theorem write_sent (c : Connection) (q : Query) : (c.write q).2.tokens = c.tokens ∧
    (c.write q).2.written = c.written ++ sent q (c.write q).1 := by
  obtain ⟨w, -, ⟨-, h⟩ | ⟨e, -, h⟩ | ⟨reason, h⟩⟩ := c.write_cases q <;> rw [h]
  · exact ⟨rfl, rfl⟩
  · exact ⟨rfl, (List.append_nil _).symm⟩
  · have hquiet := shutDown_quiet { c with writer := w } (.transport reason)
    exact ⟨hquiet.tokens, hquiet.written.trans (List.append_nil _).symm⟩

theorem continueQuery_sent (c : Connection) (t : Token) :
    (c.continueQuery t).2.tokens = c.tokens ∧
      (c.continueQuery t).2.written =
        c.written ++ sent (.bare t .continue) (c.continueQuery t).1 := by
  unfold continueQuery
  split
  · exact ⟨rfl, (List.append_nil _).symm⟩
  · split
    · exact c.write_sent _
    · exact ⟨rfl, (List.append_nil _).symm⟩

/-- The tokens and the requests written after an action. -/
inductive Requests (c : Connection) : Action → TokenSource → List Query → Prop where
  | quiet (a : Action) : Requests c a c.tokens c.written
  | refused (a : Action) (q : Query) (hq : a.request? c = some q) :
    Requests c a c.tokens.take.2 c.written
  | asked (a : Action) (q : Query) (hq : a.request? c = some q)
    (hlen : (c.after a).cursors.length = c.cursors.length + 1) :
    Requests c a c.tokens.take.2 (c.written ++ [q])
  | fetched (i : CursorId) (k : Cursor) (hk : c.cursors[i]? = some k)
    (hread : Event.ofRead k.inbox.step.1 (c.next? i).1 = .fetched) :
    Requests c (.next i) c.tokens (c.written ++ [.bare k.token .continue])
  | continued (t : Token) :
    Requests c (.continueQuery t) c.tokens (c.written ++ [.bare t .continue])
  | stopped (a : Action) (t : Token) : Requests c a c.tokens (c.written ++ [.bare t .stop])

theorem opening_of_request? {a : Action} {q : Query} (hq : a.request? c = some q) :
    q.isOpening = true ∧ q.token = c.tokens.next := by
  cases a with
  | query | noreplyWait =>
    obtain rfl := Option.some.inj hq
    exact ⟨rfl, rfl⟩
  | _ => cases hq

theorem Quiet.requests {a : Action} (h : Quiet c c') : Requests c a c'.tokens c'.written := by
  rw [h.tokens, h.written]
  exact .quiet a

theorem requests_of_asks {E : Token → Prop} {O : CursorId → Prop} {noreply : Bool} {a : Action}
    {q : Query} {r : Except ClientError CursorId × Connection} (hq : a.request? c = some q)
    (ha : c.after a = r.2) (h : Asks E O noreply q c r) :
    Requests c a (c.after a).tokens (c.after a).written := by
  rcases h with ⟨e, -, -, ht, hw⟩ | ⟨c₁, k, rfl, hs, -, ht, hw, -⟩
  · rw [ha, ht, hw]
    exact .refused a q hq
  · have hlen : (c.after a).cursors.length = c.cursors.length + 1 := by
      rw [ha, ← hs.length]
      exact List.length_append
    have htokens : (c.after a).tokens = c.tokens.take.2 := ha ▸ ht
    have hwritten : (c.after a).written = c.written ++ [q] := ha ▸ hw
    rw [htokens, hwritten]
    exact .asked a q hq hlen

theorem next?_requests (id : CursorId) :
    Requests c (.next id) (c.next? id).2.tokens (c.next? id).2.written := by
  have hset (s : Inbox) : Quiet c (c.modifyInbox id fun _ => s) := ⟨rfl, rfl⟩
  have hread (k : Cursor) (hk : c.cursors[id]? = some k) := Requests.fetched id k hk
  unfold next? at hread ⊢
  split
  · exact .quiet _
  next k hk =>
    have hfetch := hread k hk
    rw [hk] at hfetch
    dsimp only at hfetch
    split
    · exact (hset _).requests
    · exact ((hset _).trans (finish_quiet _ id)).requests
    · exact ((hset _).trans (finish_quiet _ id)).requests
    · exact .quiet _
    next s hstep =>
      rw [hstep] at hfetch
      obtain ⟨ht, hw⟩ := continueQuery_sent (c.modifyInbox id fun _ => s) k.token
      dsimp only at hfetch
      split
      next d hq =>
        rw [hq] at ht hw hfetch
        have htokens : d.tokens = c.tokens := ht
        have hwritten : d.written = c.written ++ [.bare k.token .continue] := hw
        rw [htokens, hwritten]
        exact hfetch rfl
      next e d hq =>
        rw [hq] at ht hw
        have hquiet : Quiet c (d.modifyInbox id Inbox.abandon) :=
          ⟨ht, hw.trans (List.append_nil _)⟩
        exact (hquiet.trans (finish_quiet _ id)).requests

theorem stop_requests {a : Action} {t : Token} (h : Quiet c c') :
    Requests c a (c'.stop t).2.tokens (c'.stop t).2.written := by
  unfold stop
  split
  · exact h.requests
  · obtain ⟨ht, hw⟩ := c'.write_sent (.bare t .stop)
    rw [ht, hw, h.tokens, h.written]
    cases (c'.write (.bare t .stop)).1 with
    | none => exact .stopped a t
    | some e =>
      rw [sent, List.append_nil]
      exact .quiet a

theorem closeCursor_requests (id : CursorId) :
    Requests c (.closeCursor id) (c.closeCursor id).2.tokens (c.closeCursor id).2.written := by
  unfold closeCursor
  split
  · exact .quiet _
  next k hk =>
    have h : Quiet c ((c.modifyInbox id Inbox.close).deregister k.token) := ⟨rfl, rfl⟩
    split
    · split
      · exact c.release_quiet.requests
      · exact .quiet _
    · dsimp only
      split
      · exact (h.trans (close_quiet _)).requests
      · split
        · exact h.requests
        · exact stop_requests h

theorem dropCursor_requests (id : CursorId) :
    Requests c (.dropCursor id) (c.dropCursor id).tokens (c.dropCursor id).written := by
  cases hk : c.cursors[id]? with
  | none =>
    have hnone : c.dropCursor id = c := by simp only [dropCursor, hk]
    rw [hnone]
    exact .quiet _
  | some k =>
    have hdrop : Quiet c (c.modifyInbox id Inbox.drop) := ⟨rfl, rfl⟩
    have hgone : Quiet c ((c.modifyInbox id Inbox.drop).deregister k.token) := ⟨rfl, rfl⟩
    rw [dropCursor_eq hk]
    split
    · exact ((hgone.trans (release_quiet _)).trans (letGo_quiet _ id)).requests
    · have hq := letGo_quiet
        (((c.modifyInbox id Inbox.drop).deregister k.token).stop k.token).2 id
      rw [hq.tokens, hq.written]
      exact stop_requests hgone
    · exact ((hdrop.trans (release_quiet _)).trans (letGo_quiet _ id)).requests
    · exact (hdrop.trans (letGo_quiet _ id)).requests

/-- What an action writes. -/
theorem requests_after (c : Connection) (a : Action) :
    Requests c a (c.after a).tokens (c.after a).written := by
  cases a with
  | query term options exclusive =>
    cases ho : c.closed with
    | true =>
      have hquiet : Quiet c (c.after (.query term options exclusive)) := by
        simp only [after, act, query, ho, if_true]
        rfl
      exact hquiet.requests
    | false =>
      exact requests_of_asks (O := fun _ => True) rfl rfl
        (c.query_cases term options exclusive rfl ho)
  | noreplyWait =>
    cases ho : c.closed with
    | true =>
      have hquiet : Quiet c (c.after .noreplyWait) := by
        simp only [after, act, noreplyWait, ho, if_true]
        rfl
      exact hquiet.requests
    | false => exact requests_of_asks (O := fun _ => True) rfl rfl (c.noreplyWait_cases rfl ho)
  | next id => exact next?_requests id
  | prime id => exact (c.prime?_quiet id).requests
  | closeCursor id => exact closeCursor_requests id
  | dropCursor id => exact dropCursor_requests id
  | continueQuery t =>
    obtain ⟨ht, hw⟩ := c.continueQuery_sent t
    have hafter : c.after (.continueQuery t) = (c.continueQuery t).2 := rfl
    rw [hafter, ht, hw]
    cases (c.continueQuery t).1 with
    | none => exact .continued t
    | some e =>
      rw [sent, List.append_nil]
      exact .quiet _
  | stop t => exact stop_requests (Quiet.refl c)
  | close => exact c.close_quiet.requests
  | drop =>
    have h : Quiet c { c with held := false } := ⟨rfl, rfl⟩
    exact (h.trans (collect_quiet _)).requests
  | report event => exact (c.handle_quiet event).requests
  | breakWriting reason => exact .quiet _

end Connection
end Reql
