import Reql.Proofs.Connection.Causes
import Reql.Proofs.Connection.Registry

/-! What is refused to a cursor that reads, and what is written when its owner gives it up. -/
namespace Reql

namespace Connection

open Cursor (Event)

variable {c c' : Connection} {a : Action} {as as₁ as₂ bs : List Action} {i j : CursorId}
  {k : Cursor} {t : Token} {s : Settings}

theorem three_le_of_asks {E : Token → Prop} {O : CursorId → Prop} {noreply : Bool} {q : Query}
    {r : Except ClientError CursorId × Connection} (h : Asks E O noreply q c r)
    (hr : errorOf r.1 = none) (hq : q.refusal? c.writer.limit = none → 3 ≤ c.writer.limit.bytes) :
    3 ≤ c.writer.limit.bytes := by
  rcases h with ⟨e, he, -⟩ | ⟨c₁, k, -, -, -, -, -, hfits, -⟩
  · rw [he] at hr
    cases hr
  · exact hq hfits

/-- Where a cursor was asked for, every request without a term fits. -/
theorem Asked.three_le {E : Token → Prop} {O : CursorId → Prop} {c₁ : Connection}
    (h : Asked E O c a k c₁) : 3 ≤ c.writer.limit.bytes := by
  have ho : c.closed = false := by
    cases hc : c.closed with
    | false => rfl
    | true => exact absurd (h.spares.closed hc) (by rw [h.closed]; decide)
  obtain ⟨q, hq, -⟩ := h.written
  have hreply := h.reply
  cases a with
  | query term options exclusive =>
    have hasks := c.query_cases (O := O) (E := fun t => t = c.tokens.next) term options exclusive
      rfl ho
    refine three_le_of_asks hasks (Reply.done.inj hreply) fun hfits => ?_
    exact (Query.refusal?_bare (t := c.tokens.next) (by decide)).mp (Query.refusal?_continue hfits)
  | noreplyWait =>
    have hasks := c.noreplyWait_cases (O := O) (E := fun t => t = c.tokens.next) rfl ho
    refine three_le_of_asks hasks (Reply.done.inj hreply) fun hfits => ?_
    exact (Query.refusal?_bare (by decide)).mp hfits
  | _ => cases hq

/-- A connection with cursors has room for every request without a term. -/
def Roomy (c : Connection) : Prop :=
  c.cursors = [] ∨ 3 ≤ c.writer.limit.bytes

theorem Roomy.after (h : Roomy c) (a : Action) : Roomy (c.after a) := by
  rcases c.after_cases a with hs | ⟨k, c₁, hasked⟩
  · rcases h with h | h
    · left
      apply List.eq_nil_of_length_eq_zero
      rw [hs.length, h]
      rfl
    · right
      rw [hs.limit]
      exact h
  · right
    have hlimit : (c.after a).writer.limit = c.writer.limit := by
      rw [hasked.after]
      exact hasked.spares.limit
    rw [hlimit]
    exact hasked.three_le

theorem three_le_run (hk : ((start s).run as).cursors[i]? = some k) :
    3 ≤ ((start s).run as).writer.limit.bytes := by
  rcases run_induction (P := Roomy) (fun _ a h => h.after a)
      (c := start s) (.inl rfl) as with h | h
  · rw [h] at hk
    cases hk
  · exact h

/-- In an event of a history, the run is cut in two. -/
theorem exists_of_mem_history {v : Event} (hv : v ∈ c.history i as) :
    ∃ as₁ a as₂, as = as₁ ++ a :: as₂ ∧ v ∈ (c.run as₁).eventsAt a i := by
  induction as generalizing c with
  | nil => cases hv
  | cons a as ih =>
    rcases List.mem_append.mp hv with hv | hv
    · exact ⟨[], a, as, rfl, hv⟩
    · obtain ⟨as₁, b, as₂, rfl, hb⟩ := ih hv
      exact ⟨a :: as₁, b, as₂, rfl, hb⟩

/-- A registered query is refused more only by the loss of the connection. -/
theorem closed_of_continueQuery_refused {t : Token} {e : ClientError} {d : Connection}
    (hregistered : c.isRegistered t = true) (hfits : 3 ≤ c.writer.limit.bytes)
    (h : c.continueQuery t = (some e, d)) : d.closed = true := by
  cases hc : c.closed with
  | true =>
    have hkept := (continueQuery_spares (E := fun _ => True) (O := fun _ => True) c t).closed hc
    rw [h] at hkept
    exact hkept
  | false =>
    rw [continueQuery_of_open hc hregistered] at h
    obtain ⟨w, hw, ⟨-, hwrite⟩ | ⟨e', hrefused, -⟩ | ⟨reason, hwrite⟩⟩ :=
      write_cases c (.bare t .continue)
    · rw [hwrite] at h
      cases h
    · have hnone : (Query.bare t .continue).refusal? w.limit = none :=
        (Query.refusal?_bare (by decide)).mpr (by rw [hw]; exact hfits)
      rw [hnone] at hrefused
      cases hrefused
    · rw [hwrite] at h
      obtain rfl := (Prod.mk.inj h).2
      exact shutDown_closed _ _

/-- On an open connection, more is refused only to a cursor that does not have its token. -/
theorem not_registered_of_refused {e : ClientError} (hk : c.cursors[i]? = some k)
    (hfits : 3 ≤ c.writer.limit.bytes) (ho : (c.after (.next i)).closed = false)
    (hv : Event.ofRead k.inbox.step.1 (c.next? i).1 = .refused e) :
    k.inbox.isRunning = true ∧ k.registered = false := by
  obtain ⟨offer, inbox, hstep⟩ : ∃ offer inbox, k.inbox.step = (offer, inbox) := ⟨_, _, rfl⟩
  have hnext := next?_of_step hk hstep
  change (c.next? i).2.closed = false at ho
  rw [hstep, hnext] at hv
  rw [hnext] at ho
  cases offer with
  | value | ended | failed | wait => cases hv
  | fetch =>
    refine ⟨running_of_wait hstep (.inr rfl), ?_⟩
    rw [Bool.eq_false_iff]
    intro hr
    have hset := getElem?_modifyInbox hk fun _ => inbox
    have hregistered : (c.modifyInbox i fun _ => inbox).isRegistered k.token = true :=
      List.any_eq_true.mpr ⟨_, List.mem_of_getElem? hset, by simp [hr]⟩
    cases hq : (c.modifyInbox i fun _ => inbox).continueQuery k.token with
    | mk result d =>
      rw [hq] at hv ho
      cases result with
      | none => cases hv
      | some e' =>
        have hopen : d.closed = false := closed_of_finish (c := d.modifyInbox i Inbox.abandon) ho
        have hclosed := closed_of_continueQuery_refused hregistered hfits hq
        rw [hopen] at hclosed
        cases hclosed

def Action.Releases (a : Action) (i : CursorId) : Prop :=
  a = .closeCursor i ∨ a = .dropCursor i

/-- What is written to stop a query depends on the stream alone. -/
theorem stop_written_congr (hc : c'.closed = c.closed) (hw : c'.writer = c.writer)
    (hwritten : c'.written = c.written) : (c'.stop t).2.written = (c.stop t).2.written := by
  have hsent : (c'.write (.bare t .stop)).1 = (c.write (.bare t .stop)).1 := by
    unfold write
    rw [hw]
    split
    · rfl
    · split <;> rfl
  unfold stop
  rw [hc]
  split
  · exact hwritten
  · rw [(c'.write_sent _).2, (c.write_sent _).2, hsent, hwritten]

/-- Who gives up a cursor asks the server to stop unless it is done. -/
theorem releases_written (hk : c.cursors[i]? = some k) (ha : a.Releases i) :
    (c.after a).written = if k.exclusive = false ∧ k.inbox.isRunning = true then
      (c.stop k.token).2.written else c.written := by
  rcases ha with rfl | rfl
  · change (c.closeCursor i).2.written = _
    have hgone : Quiet c ((c.modifyInbox i Inbox.close).deregister k.token) := ⟨rfl, rfl⟩
    simp only [closeCursor, hk, Inbox.isRunning_iff]
    cases hclosed : k.inbox.closed with
    | true =>
      simp only [if_true, Bool.true_eq_false, false_and, and_false, if_false]
      split
      · exact (release_quiet c).written
      · rfl
    | false =>
      cases hexclusive : k.exclusive with
      | true => simpa using (hgone.trans (close_quiet _)).written
      | false =>
        cases hdone : k.inbox.serverDone with
        | true => simpa using hgone.written
        | false =>
          simp only [Bool.false_eq_true, if_false, and_self, if_true]
          exact stop_written_congr rfl rfl rfl
  · change (c.dropCursor i).written = _
    have hdrop : Quiet c (c.modifyInbox i Inbox.drop) := ⟨rfl, rfl⟩
    have hgone : Quiet c ((c.modifyInbox i Inbox.drop).deregister k.token) := ⟨rfl, rfl⟩
    rw [dropCursor_eq hk]
    cases hrun : k.inbox.isRunning <;> cases hexclusive : k.exclusive
    · simpa using (hdrop.trans (letGo_quiet _ i)).written
    · simpa using ((hdrop.trans (release_quiet _)).trans (letGo_quiet _ i)).written
    · simp only [and_self, if_true, (letGo_quiet _ i).written]
      exact stop_written_congr rfl rfl rfl
    · simpa using ((hgone.trans (release_quiet _)).trans (letGo_quiet _ i)).written

end Connection
end Reql
