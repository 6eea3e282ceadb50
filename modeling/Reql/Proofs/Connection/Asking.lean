import Reql.Proofs.Connection.Parting
import Reql.Proofs.Connection.Tokens
import Reql.Proofs.Cursor.Untouched

/-! What asking for a cursor does to everything else, and what giving up its token means. -/
namespace Reql.Connection

open Cursor (Event)

variable {c c' d : Connection} {t : Token} {q : Query} {k : Cursor} {a : Action}

/-! ### Tokens that are given up -/

/-- Until a request takes the token again, nobody is registered under it, and what arrives under it
changes nothing. -/
def Forgets (c : Connection) (t : Token) : Prop :=
  ∀ as, t ∉ c.taken as → (c.run as).isRegistered t = false ∧
    ∀ f : Frame, f.token = t → (c.run as).after (.report (.frame f)) = c.run as

theorem addCursor_isRegistered (c : Connection) (k : Cursor) (t : Token) :
    (c.addCursor k).2.isRegistered t = (c.isRegistered t || (k.registered && k.token == t)) := by
  simp [addCursor, isRegistered]

/-- Only a request that takes a token is registered under it. -/
theorem isRegistered_after (h : c.isRegistered t = false) (ha : c.taken? a ≠ some t) :
    (c.after a).isRegistered t = false := by
  rcases c.after_cases a with hspares | ⟨l, c₁, hasked⟩
  · exact hspares.isRegistered h
  · have hne : l.token ≠ t := by
      rw [hasked.new.token]
      exact fun ht => ha (ht ▸ hasked.taken?)
    rw [hasked.after, addCursor_isRegistered, hasked.spares.isRegistered h]
    simp [hne]

theorem isRegistered_run {as : List Action} (h : c.isRegistered t = false) (ht : t ∉ c.taken as) :
    (c.run as).isRegistered t = false := by
  induction as generalizing c with
  | nil => exact h
  | cons a as ih =>
    rw [taken, List.mem_append, not_or] at ht
    exact ih (isRegistered_after h fun ha => ht.1 (by simp [ha])) ht.2

theorem forgets_of_not_registered (h : c.isRegistered t = false) : c.Forgets t := fun _ ht =>
  have hrun := isRegistered_run h ht
  ⟨hrun, fun _ hf => route_eq_self (hf ▸ hrun)⟩

/-! ### Cursors of others -/

/-- From `c` to `c'` the connection stays open, and the cursors with other tokens than that of the
request `q` stay as they are, unless the stream fails as `q` is written: they are told that. -/
structure Undisturbed (q : Query) (c c' : Connection) : Prop where
  closed : c'.closed = c.closed ∨ ∃ reason, (c.write q).1 = some (.transport reason)
  cursors : ∀ (i : CursorId) (k : Cursor), c.cursors[i]? = some k → k.token ≠ q.token →
    c'.cursors[i]? = some k ∨ ∃ reason, (c.write q).1 = some (.transport reason) ∧
      c'.cursors[i]? = some (k.lose (.transport reason))

/-- Whether an error is that of the stream when a request is written. -/
def FailsFor (c : Connection) (q : Query) (e : ClientError) : Prop :=
  ∃ reason, e = .transport reason ∧ (c.write q).1 = some (.transport reason)

theorem Shuts.undisturbed {O : CursorId → Prop} (h : Shuts (c.FailsFor q) (· = q.token) O c c')
    (horderly : Orderly c) (hO : ∀ i k, c.cursors[i]? = some k → O i → k.token = q.token) :
    Undisturbed q c c' where
  closed := by
    cases hc : c.closed with
    | true => exact .inl (h.closed hc)
    | false =>
      cases hc' : c'.closed with
      | false => exact .inl rfl
      | true =>
        obtain ⟨_, ⟨reason, -, hw⟩, -⟩ := h.told hc hc'
        exact .inr ⟨reason, hw⟩
  cursors i k hk ht := by
    obtain ⟨k', hk', -, -, hb⟩ := h.cursors i k hk
    have hb := hb fun ho => ht (hO i k hk ho)
    cases hr : k.registered with
    | false => exact .inl (hk'.trans (by rw [hb.eq_of_not_registered hr]))
    | true =>
      cases hc' : c'.closed with
      | true =>
        obtain ⟨_, ⟨reason, rfl, hw⟩, htold⟩ :=
          h.told (horderly.open_of_registered hk hr) hc'
        rcases htold i k hk fun ho => ht (hO i k hk ho) with hlost | ⟨hend, -⟩
        · exact .inr ⟨reason, hw, hlost⟩
        · exact absurd hend ht
      | false =>
        cases hb with
        | same => exact .inl hk'
        | displaced hend => exact absurd hend ht
        | lost e hc => rw [hc'] at hc; cases hc

/-! ### Requests for a cursor -/

/-- What a request for a cursor gives: the error met when it was written, or the place of the
cursor. -/
def placed (k : Cursor) :
    Option ClientError × Connection → Except ClientError CursorId × Connection
  | (some e, c) => (.error e, c)
  | (none, c) => (.ok (c.addCursor k).1, (c.addCursor k).2)

/-- A query is written, and its cursor is added if that succeeds. -/
theorem query_eq (ho : c.closed = false) (term : Term) (options : QueryOptions)
    (exclusive : Bool) : ∃ k : Cursor, k.New c.tokens.next options.isNoreply ∧
      k.exclusive = exclusive ∧ c.query term options exclusive =
        placed k ((c.prepare options.isNoreply).write (c.startOf term options)) := by
  have hopen : ¬c.closed = true := by rw [ho]; decide
  simp only [query, if_neg hopen, QueryOptions.isNoreply_withDefaultDb]
  cases options.isNoreply with
  | true =>
    exact ⟨⟨c.tokens.next, term, exclusive, .finished, false, true⟩, ⟨rfl, rfl, rfl⟩, rfl, rfl⟩
  | false =>
    simp only [Bool.false_eq_true, if_false, ask_eq ho]
    exact ⟨⟨c.tokens.next, term, exclusive, .start, true, true⟩, ⟨rfl, rfl, rfl⟩, rfl, rfl⟩

theorem noreplyWait_eq (ho : c.closed = false) : ∃ k : Cursor, k.New c.tokens.next false ∧
    k.exclusive = false ∧ c.noreplyWait =
      placed k ((c.prepare false).write (.bare c.tokens.next .noreplyWait)) := by
  have hopen : ¬c.closed = true := by rw [ho]; decide
  simp only [noreplyWait, if_neg hopen, ask_eq ho]
  exact ⟨⟨c.tokens.next, .anything, false, .start, true, true⟩, ⟨rfl, rfl, rfl⟩, rfl, rfl⟩

/-- What asking for a cursor with the request `q` comes to in the connection `c`, with the result
`r`. -/
structure Posed (c : Connection) (q : Query) (noreply : Bool)
    (r : Except ClientError CursorId × Connection) : Prop where
  /-- Nobody else has the token. -/
  fresh : ∀ k ∈ c.cursors, k.token ≠ q.token
  /-- It fails only if the request cannot be written. -/
  error : ∀ e, r.1 = .error e ↔ (c.write q).1 = some e
  written : r.2.written = c.written ++ sent q (c.write q).1
  others : Undisturbed q c r.2
  /-- Nothing is waited for if it fails, or if no answer is wanted. -/
  forgotten : noreply = true ∨ (∃ e, r.1 = .error e) → r.2.Forgets q.token

theorem posed_of_write {noreply : Bool} (horderly : Orderly c)
    (hfresh : ∀ l ∈ c.cursors, l.token ≠ c.tokens.next) (hq : q.token = c.tokens.next)
    (hk : k.New c.tokens.next noreply) :
    Posed c q noreply (placed k ((c.prepare noreply).write q)) := by
  have hwrite : (c.write q).1 = ((c.prepare noreply).write q).1 :=
    write_of_writer_eq rfl (c.prepare_writer _)
  have hwritten := ((c.prepare noreply).write_sent q).2
  rw [← hq] at hfresh hk
  have hprepared : Spares (· = q.token) (fun _ => False) c (c.prepare noreply) :=
    c.prepare_spares hq.symm
  have hshuts : Shuts (c.FailsFor q) (· = q.token) (fun _ => False) c
      ((c.prepare noreply).write q).2 :=
    (hprepared.shuts (c.prepare_closed _)).trans
      (write_shuts _ fun reason hw => ⟨reason, rfl, hwrite.trans hw⟩)
  have hothers := hshuts.undisturbed horderly fun _ _ _ h => h.elim
  have hgone : ((c.prepare noreply).write q).2.isRegistered q.token = false :=
    hshuts.toSpares.isRegistered (isRegistered_eq_false.mpr fun l hl ht => absurd ht (hfresh l hl))
  rw [prepare_written, ← hwrite] at hwritten
  generalize (c.prepare noreply).write q = r at *
  obtain ⟨_ | e, c'⟩ := r
  · have hfailed : (c.write q).1 = none := hwrite
    refine ⟨hfresh, fun e => ?_, hwritten, ⟨hothers.closed, fun i l hl ht => ?_⟩, fun h => ?_⟩
    · simp [placed, hfailed]
    · have hlt : i < c'.cursors.length := by
        rw [hshuts.length]
        exact (List.getElem?_eq_some_iff.mp hl).1
      have happend : (placed k (none, c')).2.cursors[i]? = c'.cursors[i]? :=
        List.getElem?_append_left hlt
      rw [happend]
      exact hothers.cursors i l hl ht
    · refine forgets_of_not_registered ?_
      obtain rfl | ⟨e, he⟩ := h
      · have hr : k.registered = false := hk.registered
        exact (c'.addCursor_isRegistered k q.token).trans (by simp [hgone, hr])
      · cases he
  · refine ⟨hfresh, fun e' => ?_, hwritten, hothers, fun _ => forgets_of_not_registered hgone⟩
    simp [placed, hwrite]

theorem posed_query (horderly : Orderly c) (hfresh : ∀ k ∈ c.cursors, k.token ≠ c.tokens.next)
    (ho : c.closed = false) (term : Term) (options : QueryOptions) (exclusive : Bool) :
    Posed c (c.startOf term options) options.isNoreply (c.query term options exclusive) := by
  obtain ⟨k, hk, -, hq⟩ := query_eq ho term options exclusive
  rw [hq]
  exact posed_of_write horderly hfresh rfl hk

theorem posed_noreplyWait (horderly : Orderly c)
    (hfresh : ∀ k ∈ c.cursors, k.token ≠ c.tokens.next) (ho : c.closed = false) :
    Posed c (.bare c.tokens.next .noreplyWait) false c.noreplyWait := by
  obtain ⟨k, hk, -, hq⟩ := noreplyWait_eq ho
  rw [hq]
  exact posed_of_write horderly hfresh rfl hk

/-- The cursor that has been asked for. -/
theorem placed_ok {r : Option ClientError × Connection} {id : CursorId}
    (h : placed k r = (.ok id, c')) :
    r.1 = none ∧ id = r.2.cursors.length ∧ c' = (r.2.addCursor k).2 ∧
      c'.cursors[id]? = some k := by
  obtain ⟨_ | e, d⟩ := r
  · obtain ⟨hid, rfl⟩ := Prod.mk.inj h
    obtain rfl := Except.ok.inj hid
    exact ⟨rfl, rfl, rfl, List.getElem?_concat_length⟩
  · cases (Prod.mk.inj h).1

/-! ### Replies -/

/-- A reply to a cursor is a frame under its token, or the loss of the connection. -/
theorem routed_of_isReply {as : List Action} {i : CursorId} {v : Event}
    (hk : c.cursors[i]? = some k) (hs : k.Sound) (hv : v ∈ c.history i as)
    (hreply : v.isReply = true) :
    (∃ f, .report (.frame f) ∈ as ∧ f.token = k.token ∧ v = .ofFrame f) ∨ ∃ e, v = .lost e := by
  obtain ⟨as₁, a, as₂, rfl, hmem⟩ := exists_of_mem_history hv
  obtain ⟨l, hl, hsteps⟩ := steps_run as₁ hk hs
  cases arises_of_mem hmem with
  | frame f l' v hl' hr ht hv harr =>
    obtain rfl := Option.some.inj (hl.symm.trans hl')
    exact .inl ⟨f, List.mem_append_right _ List.mem_cons_self,
      ht.symm.trans hsteps.token_eq, hv⟩
  | lost a e => exact .inr ⟨e, rfl⟩
  | next l' v hl' hv hread => cases v <;> cases hread <;> cases hreply
  | prime | closeCursor | dropCursor | displaced | asked => cases hreply

end Reql.Connection
