import Reql.Proofs.Connection.Orderly

/-! What of a connection one token concerns, and two connections in which that is the same. -/
namespace Reql

namespace Connection

/-- The cursors with a token. -/
def lane (c : Connection) (t : Token) : List Cursor :=
  c.cursors.filter (·.token == t)

/-- The place that a cursor with a token has among those with it. -/
def rank (c : Connection) (t : Token) (id : CursorId) : Nat :=
  ((c.cursors.map (·.token)).take id).count t

end Connection

namespace Cursor

variable {t : Token} {l l' : List Cursor} {i : Nat} {k : Cursor}

theorem getElem?_filter (hk : l[i]? = some k) (ht : k.token = t) :
    (l.filter (·.token == t))[((l.map (·.token)).take i).count t]? = some k := by
  induction l generalizing i with
  | nil => cases hk
  | cons m l ih =>
    cases i with
    | zero =>
      obtain rfl := Option.some.inj hk
      simp [ht]
    | succ i =>
      have h := ih hk
      by_cases hm : m.token = t
      · simpa [hm] using h
      · simpa [hm] using h

theorem filter_modify {f : Cursor → Cursor} (hf : ∀ k, (f k).token = k.token)
    (hk : l[i]? = some k) (ht : k.token = t) :
    (l.modify i f).filter (·.token == t) =
      (l.filter (·.token == t)).modify (((l.map (·.token)).take i).count t) f := by
  induction l generalizing i with
  | nil => cases hk
  | cons m l ih =>
    cases i with
    | zero =>
      obtain rfl := Option.some.inj hk
      simp [ht, hf]
    | succ i =>
      have h := ih hk
      by_cases hm : m.token = t
      · simpa [hm] using h
      · simpa [hm] using h

theorem filter_map {f : Cursor → Cursor} (hf : ∀ k, (f k).token = k.token) :
    (l.map f).filter (·.token == t) = (l.filter (·.token == t)).map f := by
  rw [List.filter_map]
  simp only [Function.comp_def, hf]

/-- Cursors with other tokens do not matter. -/
theorem filter_congr (hlen : l'.length = l.length)
    (h : ∀ (i : Nat) (k : Cursor), l[i]? = some k → ∃ k' : Cursor, l'[i]? = some k' ∧
      k'.token = k.token ∧ (k.token = t → k' = k)) :
    l'.filter (·.token == t) = l.filter (·.token == t) := by
  induction l generalizing l' with
  | nil => rw [List.length_eq_zero_iff.mp hlen]
  | cons m l ih =>
    cases l' with
    | nil => cases hlen
    | cons m' l' =>
      have htail := ih (Nat.succ.inj hlen) fun i k hk => h (i + 1) k hk
      obtain ⟨_, hm, htok, heq⟩ := h 0 m rfl
      obtain rfl := Option.some.inj hm
      by_cases hmt : m.token = t
      · rw [List.filter_cons, List.filter_cons, htok, htail, heq hmt]
      · simp [htok, hmt, htail]

end Cursor

namespace Connection

/-- Nothing under a token distinguishes two connections. -/
structure Alike (t : Token) (c₁ c₂ : Connection) : Prop where
  lane : c₁.lane t = c₂.lane t
  limit : c₁.writer.limit = c₂.writer.limit
  database : c₁.database = c₂.database

/-- Besides, a cursor with the token is at `i₁` in the one and at `i₂` in the other. -/
structure Twin (t : Token) (i₁ i₂ : CursorId) (c₁ c₂ : Connection) : Prop extends
    Alike t c₁ c₂ where
  cursor : ∃ k, c₁.cursors[i₁]? = some k ∧ c₂.cursors[i₂]? = some k ∧ k.token = t
  rank : c₁.rank t i₁ = c₂.rank t i₂

/-- The cursors and the settings stay. -/
structure Still (c c' : Connection) : Prop where
  cursors : c'.cursors = c.cursors
  limit : c'.writer.limit = c.writer.limit
  database : c'.database = c.database

variable {t : Token} {i₁ i₂ : CursorId} {c c₁ c₂ c₁' c₂' : Connection}

theorem lane_eq_of_cursors_eq (h : c₁.cursors = c.cursors) : c₁.lane t = c.lane t := by
  rw [lane, lane, h]

theorem getElem?_lane {i : CursorId} {k : Cursor} (hk : c.cursors[i]? = some k)
    (ht : k.token = t) : (c.lane t)[c.rank t i]? = some k :=
  Cursor.getElem?_filter hk ht

theorem map_token_modify (l : List Cursor) (i : Nat) {f : Cursor → Cursor}
    (hf : ∀ k, (f k).token = k.token) : (l.modify i f).map (·.token) = l.map (·.token) := by
  induction l generalizing i with
  | nil => cases i <;> rfl
  | cons m l ih => cases i <;> simp [hf, ih]

theorem Alike.of_still (h : Alike t c₁ c₂) (h₁ : Still c₁ c₁') (h₂ : Still c₂ c₂') :
    Alike t c₁' c₂' where
  lane := by rw [lane_eq_of_cursors_eq h₁.cursors, lane_eq_of_cursors_eq h₂.cursors, h.lane]
  limit := by rw [h₁.limit, h₂.limit, h.limit]
  database := by rw [h₁.database, h₂.database, h.database]

namespace Twin

theorem of_still (h : Twin t i₁ i₂ c₁ c₂) (h₁ : Still c₁ c₁') (h₂ : Still c₂ c₂') :
    Twin t i₁ i₂ c₁' c₂' where
  toAlike := h.toAlike.of_still h₁ h₂
  cursor := by rw [h₁.cursors, h₂.cursors]; exact h.cursor
  rank := by
    have hrank := h.rank
    unfold Connection.rank at hrank ⊢
    rwa [h₁.cursors, h₂.cursors]

theorem modify (h : Twin t i₁ i₂ c₁ c₂) {f : Cursor → Cursor}
    (hf : ∀ k, (f k).token = k.token) :
    Twin t i₁ i₂ { c₁ with cursors := c₁.cursors.modify i₁ f }
      { c₂ with cursors := c₂.cursors.modify i₂ f } := by
  obtain ⟨k, hk₁, hk₂, ht⟩ := h.cursor
  refine ⟨⟨?_, h.limit, h.database⟩, ⟨f k, ?_, ?_, (hf k).trans ht⟩, ?_⟩
  · have hlane := h.lane
    have hrank := h.rank
    unfold Connection.lane at hlane ⊢
    unfold Connection.rank at hrank
    rw [Cursor.filter_modify hf hk₁ ht, Cursor.filter_modify hf hk₂ ht, hlane, hrank]
  · rw [List.getElem?_modify_eq, hk₁]
    rfl
  · rw [List.getElem?_modify_eq, hk₂]
    rfl
  · have hrank := h.rank
    unfold Connection.rank at hrank ⊢
    rwa [map_token_modify _ _ hf, map_token_modify _ _ hf]

theorem modifyInbox (h : Twin t i₁ i₂ c₁ c₂) (f : Inbox → Inbox) :
    Twin t i₁ i₂ (c₁.modifyInbox i₁ f) (c₂.modifyInbox i₂ f) :=
  h.modify fun _ => rfl

end Twin

theorem Alike.map (h : Alike t c₁ c₂) {f : Cursor → Cursor} (hf : ∀ k, (f k).token = k.token) :
    Alike t { c₁ with cursors := c₁.cursors.map f } { c₂ with cursors := c₂.cursors.map f } where
  lane := by
    have hlane := h.lane
    unfold Connection.lane at hlane ⊢
    rw [Cursor.filter_map hf, Cursor.filter_map hf, hlane]
  limit := h.limit
  database := h.database

theorem deregister_token (s : Token) (k : Cursor) : (k.deregister s).token = k.token := by
  unfold Cursor.deregister
  split <;> rfl

theorem Alike.deregister (h : Alike t c₁ c₂) (s : Token) :
    Alike t (c₁.deregister s) (c₂.deregister s) :=
  h.map (deregister_token s)

theorem Alike.route (h : Alike t c₁ c₂) (f : Frame) : Alike t (c₁.route f) (c₂.route f) :=
  h.map (receive_token f)

theorem isRegistered_eq (c : Connection) (t : Token) :
    c.isRegistered t = (c.lane t).any (·.registered) := by
  rw [isRegistered, lane, List.any_filter]
  simp only [Bool.and_comm]

/-- A request either leaves a connection open, and its outcome does not depend on the stream, or
it closes the connection. -/
theorem write_still {q : Query} (ho : (c.write q).2.closed = false) :
    (c.write q).1 = q.refusal? c.writer.limit ∧ Still c (c.write q).2 := by
  obtain ⟨w, hw, ⟨hq, h⟩ | ⟨e, hq, h⟩ | ⟨reason, h⟩⟩ := c.write_cases q
  · rw [h]
    exact ⟨by rw [← hw, hq], rfl, hw, rfl⟩
  · rw [h]
    exact ⟨by rw [← hw, hq], rfl, hw, rfl⟩
  · rw [h] at ho
    unfold shutDown at ho
    split at ho
    next hc =>
      rw [hc] at ho
      cases ho
    · cases ho

theorem continueQuery_still {s : Token} (ho : (c.continueQuery s).2.closed = false) :
    (c.continueQuery s).1 = (if c.isRegistered s then
      (Query.bare s .continue).refusal? c.writer.limit else some (.unknownToken s)) ∧
    Still c (c.continueQuery s).2 := by
  unfold continueQuery at ho ⊢
  split at ho
  next hc =>
    rw [hc] at ho
    cases ho
  next hc =>
    rw [if_neg hc]
    by_cases hr : c.isRegistered s = true
    · rw [if_pos hr] at ho
      rw [if_pos hr, if_pos hr]
      exact write_still ho
    · rw [if_neg hr, if_neg hr]
      exact ⟨rfl, rfl, rfl, rfl⟩

theorem stop_still {s : Token} (ho : (c.stop s).2.closed = false) :
    (c.stop s).1 = (Query.bare s .stop).refusal? c.writer.limit ∧ Still c (c.stop s).2 := by
  unfold stop at ho ⊢
  split at ho
  next hc =>
    rw [hc] at ho
    cases ho
  next hc =>
    rw [if_neg hc]
    exact write_still ho

theorem collect_still (c : Connection) : Still c c.collect := by
  unfold collect
  split <;> exact ⟨rfl, rfl, rfl⟩

theorem collect_closed (c : Connection) : c.collect.closed = c.closed := by
  unfold collect
  split <;> rfl

theorem close_closed (c : Connection) : c.close.closed = true := by
  have h : (c.shutDown .connectionClosed).closed = true := by
    unfold shutDown
    split
    · assumption
    · rfl
  unfold close closeWriter
  split <;> exact h

theorem release_closed (c : Connection) : c.release.closed = true := by
  unfold release
  split
  · assumption
  · exact c.close_closed

theorem Twin.finish (h : Twin t i₁ i₂ c₁ c₂) (ho : (c₁.finish i₁).closed = false) :
    Alike t (c₁.finish i₁) (c₂.finish i₂) := by
  obtain ⟨k, hk₁, hk₂, -⟩ := h.cursor
  simp only [Connection.finish, hk₁, hk₂] at ho ⊢
  by_cases hx : k.exclusive = true
  · rw [if_pos hx, release_closed] at ho
    cases ho
  · rw [if_neg hx, if_neg hx]
    exact h.toAlike.deregister _

theorem closed_of_finish {id : CursorId} (ho : (c.finish id).closed = false) :
    c.closed = false := by
  unfold Connection.finish at ho
  split at ho
  · exact ho
  · dsimp only at ho
    split at ho
    · rw [release_closed] at ho
      cases ho
    · exact ho

/-- The outcome of a request for more under the token. -/
theorem Alike.continueQuery (h : Alike t c₁ c₂) (ho₁ : (c₁.continueQuery t).2.closed = false)
    (ho₂ : (c₂.continueQuery t).2.closed = false) :
    (c₁.continueQuery t).1 = (c₂.continueQuery t).1 := by
  rw [(continueQuery_still ho₁).1, (continueQuery_still ho₂).1, isRegistered_eq, isRegistered_eq,
    h.lane, h.limit]

theorem Twin.next? (h : Twin t i₁ i₂ c₁ c₂) (ho₁ : (c₁.next? i₁).2.closed = false)
    (ho₂ : (c₂.next? i₂).2.closed = false) :
    (c₁.next? i₁).1 = (c₂.next? i₂).1 ∧ Alike t (c₁.next? i₁).2 (c₂.next? i₂).2 := by
  obtain ⟨k, hk₁, hk₂, ht⟩ := h.cursor
  simp only [Connection.next?, hk₁, hk₂] at ho₁ ho₂ ⊢
  cases hstep : k.inbox.step with
  | mk offer s =>
    have hset := h.modifyInbox fun _ => s
    rw [hstep] at ho₁ ho₂
    cases offer with
    | value v => exact ⟨rfl, hset.toAlike⟩
    | ended => exact ⟨rfl, hset.finish ho₁⟩
    | failed e => exact ⟨rfl, hset.finish ho₁⟩
    | wait => exact ⟨rfl, h.toAlike⟩
    | fetch =>
      dsimp only at ho₁ ho₂ ⊢
      rw [ht] at ho₁ ho₂ ⊢
      have hq₁ := continueQuery_still (c := c₁.modifyInbox i₁ fun _ => s) (s := t)
      have hq₂ := continueQuery_still (c := c₂.modifyInbox i₂ fun _ => s) (s := t)
      have heq := hset.toAlike.continueQuery
      rcases hr₁ : (c₁.modifyInbox i₁ fun _ => s).continueQuery t with ⟨e₁, d₁⟩
      rcases hr₂ : (c₂.modifyInbox i₂ fun _ => s).continueQuery t with ⟨e₂, d₂⟩
      rw [hr₁] at ho₁ hq₁ heq
      rw [hr₂] at ho₂ hq₂ heq
      have hopen₁ : d₁.closed = false := by
        cases e₁ with
        | none => exact ho₁
        | some e => exact closed_of_finish (c := d₁.modifyInbox i₁ Inbox.abandon) ho₁
      have hopen₂ : d₂.closed = false := by
        cases e₂ with
        | none => exact ho₂
        | some e => exact closed_of_finish (c := d₂.modifyInbox i₂ Inbox.abandon) ho₂
      obtain rfl : e₁ = e₂ := heq hopen₁ hopen₂
      have hasked := hset.of_still (hq₁ hopen₁).2 (hq₂ hopen₂).2
      cases e₁ with
      | none => exact ⟨rfl, hasked.toAlike⟩
      | some e => exact ⟨rfl, (hasked.modifyInbox Inbox.abandon).finish ho₁⟩

theorem Twin.prime? (h : Twin t i₁ i₂ c₁ c₂) (ho : (c₁.prime? i₁).2.closed = false) :
    (c₁.prime? i₁).1 = (c₂.prime? i₂).1 ∧ Alike t (c₁.prime? i₁).2 (c₂.prime? i₂).2 := by
  obtain ⟨k, hk₁, hk₂, -⟩ := h.cursor
  simp only [Connection.prime?, hk₁, hk₂] at ho ⊢
  cases hprime : k.inbox.prime with
  | mk r s =>
    rw [hprime] at ho
    cases r with
    | ready => exact ⟨rfl, h.toAlike⟩
    | wait => exact ⟨rfl, h.toAlike⟩
    | failed e => exact ⟨rfl, (h.modifyInbox fun _ => s).finish ho⟩

theorem Twin.deregister (h : Twin t i₁ i₂ c₁ c₂) (s : Token) :
    Twin t i₁ i₂ (c₁.deregister s) (c₂.deregister s) where
  toAlike := h.toAlike.deregister s
  cursor := by
    obtain ⟨k, hk₁, hk₂, ht⟩ := h.cursor
    refine ⟨k.deregister s, ?_, ?_, (deregister_token s k).trans ht⟩
    · simp only [Connection.deregister, List.getElem?_map, hk₁, Option.map_some]
    · simp only [Connection.deregister, List.getElem?_map, hk₂, Option.map_some]
  rank := by
    have hmap (l : List Cursor) : (l.map (·.deregister s)).map (·.token) = l.map (·.token) := by
      simp only [List.map_map, Function.comp_def, deregister_token]
    have hrank := h.rank
    unfold Connection.rank at hrank ⊢
    rwa [Connection.deregister, Connection.deregister, hmap, hmap]

theorem Twin.stop (h : Twin t i₁ i₂ c₁ c₂) (s : Token) (ho₁ : (c₁.stop s).2.closed = false)
    (ho₂ : (c₂.stop s).2.closed = false) :
    (c₁.stop s).1 = (c₂.stop s).1 ∧ Twin t i₁ i₂ (c₁.stop s).2 (c₂.stop s).2 := by
  obtain ⟨he₁, hs₁⟩ := stop_still ho₁
  obtain ⟨he₂, hs₂⟩ := stop_still ho₂
  exact ⟨by rw [he₁, he₂, h.limit], h.of_still hs₁ hs₂⟩

theorem Twin.closeCursor (h : Twin t i₁ i₂ c₁ c₂) (ho₁ : (c₁.closeCursor i₁).2.closed = false)
    (ho₂ : (c₂.closeCursor i₂).2.closed = false) :
    (c₁.closeCursor i₁).1 = (c₂.closeCursor i₂).1 ∧
      Alike t (c₁.closeCursor i₁).2 (c₂.closeCursor i₂).2 := by
  obtain ⟨k, hk₁, hk₂, -⟩ := h.cursor
  have hgone := (h.modifyInbox Inbox.close).deregister k.token
  simp only [Connection.closeCursor, hk₁, hk₂] at ho₁ ho₂ ⊢
  by_cases hc : k.inbox.closed = true
  · rw [if_pos hc] at ho₁
    rw [if_pos hc, if_pos hc]
    by_cases hx : k.exclusive = true
    · rw [if_pos hx, release_closed] at ho₁
      cases ho₁
    · rw [if_neg hx, if_neg hx]
      exact ⟨rfl, h.toAlike⟩
  · rw [if_neg hc] at ho₁ ho₂
    rw [if_neg hc, if_neg hc]
    by_cases hx : k.exclusive = true
    · rw [if_pos hx, close_closed] at ho₁
      cases ho₁
    · rw [if_neg hx] at ho₁ ho₂
      rw [if_neg hx, if_neg hx]
      by_cases hd : k.inbox.serverDone = true
      · rw [if_pos hd, if_pos hd]
        exact ⟨rfl, hgone.toAlike⟩
      · rw [if_neg hd] at ho₁ ho₂
        rw [if_neg hd, if_neg hd]
        obtain ⟨he, hstop⟩ := hgone.stop k.token ho₁ ho₂
        exact ⟨he, hstop.toAlike⟩

theorem letGo_closed (c : Connection) (id : CursorId) : (c.letGo id).closed = c.closed :=
  collect_closed _

theorem Twin.letGo (h : Twin t i₁ i₂ c₁ c₂) : Alike t (c₁.letGo i₁) (c₂.letGo i₂) := by
  have hgone := h.modify (f := fun k => { k with held := false }) fun _ => rfl
  exact (hgone.of_still (collect_still _) (collect_still _)).toAlike

theorem Twin.dropCursor (h : Twin t i₁ i₂ c₁ c₂) (ho₁ : (c₁.dropCursor i₁).closed = false)
    (ho₂ : (c₂.dropCursor i₂).closed = false) :
    Alike t (c₁.dropCursor i₁) (c₂.dropCursor i₂) := by
  obtain ⟨k, hk₁, hk₂, -⟩ := h.cursor
  have hdrop := h.modifyInbox Inbox.drop
  rw [dropCursor_eq hk₁] at ho₁ ⊢
  rw [dropCursor_eq hk₂] at ho₂ ⊢
  revert ho₁ ho₂
  cases k.inbox.isRunning <;> cases k.exclusive <;> intro ho₂ ho₁ <;> dsimp only at ho₁ ho₂ ⊢
  · exact hdrop.letGo
  · rw [letGo_closed, release_closed] at ho₁
    cases ho₁
  · rw [letGo_closed] at ho₁ ho₂
    exact ((hdrop.deregister k.token).stop k.token ho₁ ho₂).2.letGo
  · rw [letGo_closed, release_closed] at ho₁
    cases ho₁

/-- What a request for a cursor comes to, once its token is taken. -/
theorem Alike.of_write (h : Alike t c₁ c₂) (q : Query) {k : Cursor}
    {r₁ r₂ : Except ClientError CursorId × Connection}
    (hr₁ : r₁ = match c₁.write q with
      | (some e, c) => (.error e, c)
      | (none, c) => (.ok (c.addCursor k).1, (c.addCursor k).2))
    (hr₂ : r₂ = match c₂.write q with
      | (some e, c) => (.error e, c)
      | (none, c) => (.ok (c.addCursor k).1, (c.addCursor k).2))
    (ho₁ : r₁.2.closed = false) (ho₂ : r₂.2.closed = false) :
    errorOf r₁.1 = errorOf r₂.1 ∧ Alike t r₁.2 r₂.2 := by
  have hw₁ := write_still (c := c₁) (q := q)
  have hw₂ := write_still (c := c₂) (q := q)
  rcases hd₁ : c₁.write q with ⟨e₁, d₁⟩
  rcases hd₂ : c₂.write q with ⟨e₂, d₂⟩
  rw [hd₁] at hr₁ hw₁
  rw [hd₂] at hr₂ hw₂
  have hopen₁ : d₁.closed = false := by cases e₁ <;> rw [hr₁] at ho₁ <;> exact ho₁
  have hopen₂ : d₂.closed = false := by cases e₂ <;> rw [hr₂] at ho₂ <;> exact ho₂
  obtain ⟨he₁, hs₁⟩ := hw₁ hopen₁
  obtain ⟨he₂, hs₂⟩ := hw₂ hopen₂
  obtain rfl : e₁ = e₂ := by
    change e₁ = _ at he₁
    change e₂ = _ at he₂
    rw [he₁, he₂, h.limit]
  have hd := h.of_still hs₁ hs₂
  rw [hr₁, hr₂]
  cases e₁ with
  | some e => exact ⟨rfl, hd⟩
  | none =>
    refine ⟨rfl, ?_, hd.limit, hd.database⟩
    have hlane := hd.lane
    unfold Connection.lane at hlane ⊢
    simp only [addCursor, List.filter_append, hlane]

theorem Alike.takeToken (h : Alike t c₁ c₂) :
    Alike t { c₁ with tokens := c₁.tokens.take.2 } { c₂ with tokens := c₂.tokens.take.2 } :=
  ⟨h.lane, h.limit, h.database⟩

theorem Alike.ask (h : Alike t c₁ c₂) (hn₁ : c₁.tokens.next = t) (hn₂ : c₂.tokens.next = t)
    (hc₁ : c₁.closed = false) (hc₂ : c₂.closed = false)
    {term : Term} {exclusive : Bool} {q : Token → Query}
    (ho₁ : (c₁.ask term exclusive q).2.closed = false)
    (ho₂ : (c₂.ask term exclusive q).2.closed = false) :
    errorOf (c₁.ask term exclusive q).1 = errorOf (c₂.ask term exclusive q).1 ∧
      Alike t (c₁.ask term exclusive q).2 (c₂.ask term exclusive q).2 := by
  refine (h.takeToken.deregister t).of_write (q t) (k := ⟨t, term, exclusive, .start, true, true⟩)
    ?_ ?_ ho₁ ho₂
  · subst hn₁
    exact ask_eq hc₁ term exclusive q
  · subst hn₂
    exact ask_eq hc₂ term exclusive q

theorem Alike.query (h : Alike t c₁ c₂) (hn₁ : c₁.tokens.next = t) (hn₂ : c₂.tokens.next = t)
    {term : Term} {options : QueryOptions} {exclusive : Bool}
    (ho₁ : (c₁.query term options exclusive).2.closed = false)
    (ho₂ : (c₂.query term options exclusive).2.closed = false) :
    errorOf (c₁.query term options exclusive).1 = errorOf (c₂.query term options exclusive).1 ∧
      Alike t (c₁.query term options exclusive).2 (c₂.query term options exclusive).2 := by
  unfold Connection.query at ho₁ ho₂ ⊢
  by_cases hc₁ : c₁.closed = true
  · rw [if_pos hc₁, hc₁] at ho₁
    cases ho₁
  by_cases hc₂ : c₂.closed = true
  · rw [if_pos hc₂, hc₂] at ho₂
    cases ho₂
  rw [if_neg hc₁] at ho₁ ⊢
  rw [if_neg hc₂] at ho₂ ⊢
  dsimp only at ho₁ ho₂ ⊢
  have hoptions : options.withDefaultDb c₁.database = options.withDefaultDb c₂.database := by
    rw [h.database]
  rw [hoptions] at ho₁ ⊢
  by_cases hn : (options.withDefaultDb c₂.database).isNoreply = true
  · rw [if_pos hn] at ho₁ ho₂
    rw [if_pos hn, if_pos hn]
    refine h.takeToken.of_write (.start t term (options.withDefaultDb c₂.database))
      (k := ⟨t, term, exclusive, .finished, false, true⟩) ?_ ?_ ho₁ ho₂
    · rw [← hn₁]
      rfl
    · rw [← hn₂]
      rfl
  · rw [if_neg hn] at ho₁ ho₂
    rw [if_neg hn, if_neg hn]
    exact h.ask hn₁ hn₂ (Bool.eq_false_iff.mpr hc₁) (Bool.eq_false_iff.mpr hc₂) ho₁ ho₂

theorem Alike.noreplyWait (h : Alike t c₁ c₂) (hn₁ : c₁.tokens.next = t)
    (hn₂ : c₂.tokens.next = t) (ho₁ : c₁.noreplyWait.2.closed = false)
    (ho₂ : c₂.noreplyWait.2.closed = false) :
    errorOf c₁.noreplyWait.1 = errorOf c₂.noreplyWait.1 ∧
      Alike t c₁.noreplyWait.2 c₂.noreplyWait.2 := by
  unfold Connection.noreplyWait at ho₁ ho₂ ⊢
  by_cases hc₁ : c₁.closed = true
  · rw [if_pos hc₁, hc₁] at ho₁
    cases ho₁
  by_cases hc₂ : c₂.closed = true
  · rw [if_pos hc₂, hc₂] at ho₂
    cases ho₂
  rw [if_neg hc₁] at ho₁ ⊢
  rw [if_neg hc₂] at ho₂ ⊢
  exact h.ask hn₁ hn₂ (Bool.eq_false_iff.mpr hc₁) (Bool.eq_false_iff.mpr hc₂) ho₁ ho₂

end Connection
end Reql
