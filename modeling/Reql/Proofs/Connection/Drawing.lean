import Reql.Proofs.Connection.Schedule

/-! Reading a cursor value by value, while a server answers each request once. -/
namespace Reql.Connection

open Cursor (Event)

def drawn : Except ClientError (Option Json) → Outcome
  | .ok (some v) => .value v
  | .ok none => .ended
  | .error e => .failed e

/-- The end of what is read: an error, or the end alone. -/
def ending : Option ClientError → Except ClientError (Option Json)
  | none => .ok none
  | some e => .error e

variable {c : Connection} {id : CursorId} {k : Cursor} {v : Json}

/-- A value is taken off the buffer. -/
theorem next?_eq_value (hk : c.cursors[id]? = some k) (h : (c.next? id).1 = some (.ok (some v))) :
    ∃ rest, k.inbox.buffer = v :: rest ∧
      (c.next? id).2 = c.modifyInbox id fun _ => { k.inbox with buffer := rest } := by
  obtain ⟨offer, s, hstep⟩ : ∃ offer s, k.inbox.step = (offer, s) := ⟨_, _, rfl⟩
  rw [next?_of_step hk hstep] at h ⊢
  cases offer with
  | value w =>
    obtain ⟨rest, hb, rfl⟩ := Inbox.step_eq_value.mp hstep
    cases h
    exact ⟨rest, hb, rfl⟩
  | ended | failed e | wait => cases h
  | fetch =>
    dsimp only at h
    rcases hcontinue : (c.modifyInbox id fun _ => s).continueQuery k.token with ⟨_ | e, d⟩ <;>
      rw [hcontinue] at h <;> cases h

theorem buffered_next? (hk : c.cursors[id]? = some k)
    (h : (c.next? id).1 = some (.ok (some v))) :
    c.buffered id = (c.next? id).2.buffered id + 1 := by
  obtain ⟨rest, hb, hc⟩ := next?_eq_value hk h
  have hread := getElem?_modifyInbox hk fun _ => { k.inbox with buffer := rest }
  rw [buffered_eq hk, hc, buffered_eq hread, hb]
  rfl

/-- A call for all values reads the first of them and goes on. -/
theorem advance_all (hk : c.cursors[id]? = some k) (values : List Json) :
    c.advance id (.all values) = match (c.next? id).1 with
      | none => (.inr (.all values), (c.next? id).2)
      | some (.error e) => (.inl (.failed e), (c.next? id).2)
      | some (.ok none) => (.inl (.values values.reverse), (c.next? id).2)
      | some (.ok (some v)) => (c.next? id).2.advance id (.all (v :: values)) := by
  rw [advance, collectAll_succ]
  rcases hr : (c.next? id).1 with _ | _ | _ | v
  · rfl
  · rfl
  · rfl
  · dsimp only
    rw [advance, buffered_next? hk hr]

/-- Only who has to wait has asked for more. -/
theorem next?_written_of_ne_none (h : (c.next? id).1 ≠ none) :
    (c.next? id).2.written = c.written := by
  cases hk : c.cursors[id]? with
  | none => rw [next?, hk]
  | some k =>
    obtain ⟨offer, s, hstep⟩ : ∃ offer s, k.inbox.step = (offer, s) := ⟨_, _, rfl⟩
    rw [next?_of_step hk hstep] at h ⊢
    cases offer with
    | value | wait => rfl
    | ended | failed e => exact (finish_quiet _ id).written
    | fetch =>
      have hsent := (continueQuery_sent (c.modifyInbox id fun _ => s) k.token).2
      dsimp only at h ⊢
      rcases hcontinue : (c.modifyInbox id fun _ => s).continueQuery k.token with ⟨_ | e, d⟩
      · rw [hcontinue] at h
        exact absurd rfl h
      · rw [hcontinue, sent, List.append_nil] at hsent
        exact (finish_quiet (d.modifyInbox id Inbox.abandon) id).written.trans hsent

namespace Parties

variable {p : Parties} {g : Consumer} {s s₁ s₂ s' : Scene} {os : List Outcome} {vs ws : List Json}
  {r : Option (Except ClientError (Option Json))} {call : Call} {values : List Json}

/-- One round of reading: the server has a turn, and then `next` is called or goes on. -/
def draw (p : Parties) (s : Scene) : Option (Except ClientError (Option Json)) × Scene :=
  (((p.reply s).connection.next? p.cursor).1,
    ⟨((p.reply s).connection.next? p.cursor).2, (p.reply s).answered⟩)

/-- After a round the server is in step, and owes nothing unless the caller waits. -/
theorem Even.draw (h : p.Even s) : p.Even (p.draw s).2 ∧
    ((p.draw s).1 ≠ none → p.reply (p.draw s).2 = (p.draw s).2) := by
  obtain ⟨k, hk⟩ := h
  obtain ⟨l, hrests⟩ := hk.reply
  unfold Parties.draw
  generalize p.reply s = s₁ at hrests
  obtain ⟨m, hm, hw⟩ := Rests.next? (c := s₁.connection) (n := s₁.answered) hrests
  exact ⟨⟨m, hm⟩, fun hsome => hm.reply_eq_self (hw hsome)⟩

theorem written_draw (h : (p.draw s).1 ≠ none) :
    (p.draw s).2.connection.written = s.connection.written :=
  (next?_written_of_ne_none h).trans (p.reply_written s)

theorem draw_cursor (h : p.Even s) : ∃ k, (p.reply s).connection.cursors[p.cursor]? = some k := by
  obtain ⟨k, hk⟩ := h
  obtain ⟨l, hl, -⟩ := hk.reply
  exact ⟨l, hl.cursor⟩

/-- A round in which a call goes on. -/
theorem round_mk (p : Parties) (g : Consumer) (s : Scene) (call : Call) (os : List Outcome) :
    p.round g ⟨s, some call, os⟩ =
      ⟨⟨((p.reply s).connection.advance p.cursor call).2, (p.reply s).answered⟩,
        ((p.reply s).connection.advance p.cursor call).1.elim g.again some,
        os ++ ((p.reply s).connection.advance p.cursor call).1.elim (fun o => [o]) fun _ => []⟩ :=
  after_caller_of_some rfl

theorem round_next (p : Parties) (g : Consumer) (s : Scene) (os : List Outcome) :
    p.round g ⟨s, some .next, os⟩ = match (p.draw s).1 with
      | none => ⟨(p.draw s).2, some .next, os⟩
      | some r => ⟨(p.draw s).2, g.again (drawn r), os ++ [drawn r]⟩ := by
  rw [round_mk, advance_next, draw]
  rcases ((p.reply s).connection.next? p.cursor).1 with _ | _ | _ | v
  · exact congrArg _ (List.append_nil os)
  · rfl
  · rfl
  · rfl

theorem round_stream (p : Parties) (g : Consumer) (s : Scene) (os : List Outcome) :
    p.round g ⟨s, some .stream, os⟩ = match (p.draw s).1 with
      | none => ⟨(p.draw s).2, some .stream, os⟩
      | some (.ok none) => ⟨⟨(p.draw s).2.connection.dropCursor p.cursor, (p.draw s).2.answered⟩,
          g.again .ended, os ++ [.ended]⟩
      | some r => ⟨(p.draw s).2, g.again (drawn r), os ++ [drawn r]⟩ := by
  rw [round_mk, advance_stream, draw]
  rcases ((p.reply s).connection.next? p.cursor).1 with _ | _ | _ | v
  · exact congrArg _ (List.append_nil os)
  · rfl
  · rfl
  · rfl

/-- In a round in which all values are asked for, a value is read and the round goes on. -/
theorem round_all (h : p.Even s) (g : Consumer) (values : List Json) (os : List Outcome) :
    p.round g ⟨s, some (.all values), os⟩ = match (p.draw s).1 with
      | none => ⟨(p.draw s).2, some (.all values), os⟩
      | some (.error e) => ⟨(p.draw s).2, g.again (.failed e), os ++ [.failed e]⟩
      | some (.ok none) =>
        ⟨(p.draw s).2, g.again (.values values.reverse), os ++ [.values values.reverse]⟩
      | some (.ok (some v)) => p.round g ⟨(p.draw s).2, some (.all (v :: values)), os⟩ := by
  obtain ⟨k, hk⟩ := draw_cursor h
  have hquiet := h.draw.2
  rw [round_mk, advance_all hk]
  rcases hr : ((p.reply s).connection.next? p.cursor).1 with _ | _ | _ | v
  · rw [draw, hr]
    exact congrArg _ (List.append_nil os)
  · rw [draw, hr]
    rfl
  · rw [draw, hr]
    rfl
  · have hdraw : (p.draw s).1 = some (.ok (some v)) := hr
    rw [hdraw]
    dsimp only
    rw [round_mk, hquiet (by rw [hdraw]; nofun)]
    rfl

/-- Values that are read in rounds one after the other. -/
inductive Draws (p : Parties) : Scene → List Json → Scene → Prop where
  | refl (s : Scene) : Draws p s [] s
  | value {s s' : Scene} {v : Json} {vs : List Json} (h : (p.draw s).1 = some (.ok (some v)))
    (hs : Draws p (p.draw s).2 vs s') : Draws p s (v :: vs) s'
  | wait {s s' : Scene} {vs : List Json} (h : (p.draw s).1 = none)
    (hs : Draws p (p.draw s).2 vs s') : Draws p s vs s'

/-- In the next round the end is read, or an error. -/
def Ends (p : Parties) (s : Scene) (e : Option ClientError) : Prop :=
  (p.draw s).1 = some (ending e)

/-- What a round of reading comes to. -/
theorem draw_cases (p : Parties) (s : Scene) : (p.draw s).1 = none ∨
    (∃ v, (p.draw s).1 = some (.ok (some v))) ∨ ∃ e, p.Ends s e := by
  unfold Ends
  rcases (p.draw s).1 with _ | e | _ | v
  · exact .inl rfl
  · exact .inr (.inr ⟨some e, rfl⟩)
  · exact .inr (.inr ⟨none, rfl⟩)
  · exact .inr (.inl ⟨v, rfl⟩)

theorem Draws.even (h : p.Draws s vs s') (hs : p.Even s) : p.Even s' := by
  induction h with
  | refl => exact hs
  | value _ _ ih | wait _ _ ih => exact ih hs.draw.1

/-- Who has read the end or an error can read nothing else, and leaves nothing behind. -/
theorem Ends.spent {e : Option ClientError} (h : p.Even s) (he : p.Ends s e) :
    ∃ l, (p.draw s).2.connection.cursors[p.cursor]? = some l ∧ l.Spent := by
  obtain ⟨k, hk⟩ := draw_cursor h
  obtain ⟨l, hl, hstep⟩ := step_next hk
  refine ⟨l, hl, (hstep.spent ?_).2⟩
  have hresult : ((p.reply s).connection.next? p.cursor).1 = some (ending e) := he
  rw [hresult]
  cases e with
  | none => exact .inl rfl
  | some e => exact .inr ⟨e, Event.result?_ofRead _ _⟩

theorem Ends.again {e : Option ClientError} (h : p.Even s) (he : p.Ends s e) :
    p.Ends (p.draw s).2 none := by
  obtain ⟨l, hl, -, hclosed, hbuffer, herror⟩ := he.spent h
  have hquiet := h.draw.2 (by rw [he]; nofun)
  have hstep : l.inbox.step = (.ended, { l.inbox with closed := true }) :=
    Inbox.step_eq_ended.mpr ⟨hbuffer, herror, .inr hclosed, rfl⟩
  rw [Ends, draw, hquiet, next?_of_step hl hstep]
  rfl

end Parties

theorem dropCursor_written_of_spent (hk : c.cursors[id]? = some k) (hs : k.Spent) :
    (c.dropCursor id).written = c.written := by
  have hreleased := releases_written hk (.inr rfl : (Action.dropCursor id).Releases id)
  rwa [if_neg (by simp [Inbox.isRunning, hs.2.1])] at hreleased

end Reql.Connection
