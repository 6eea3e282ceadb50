import Reql.Proofs.Connection.Action
import Reql.Proofs.Connection.Registering
import Reql.Proofs.Connection.Writing
import Reql.Proofs.Cursor.History

/-! What an action does to the cursors of others and to the connection at large. -/
namespace Reql
namespace Connection

open Cursor (Bystander)

/-- From `c` to `c'` the connection keeps its settings and does not open again; if it closes, nobody
stays registered. Cursors stay and keep their tokens, and none is registered anew; only those with
a token in `E` are displaced, and only those in `O` see more than the loss of their
registration. -/
structure Spares (E : Token → Prop) (O : CursorId → Prop) (c c' : Connection) : Prop where
  database : c'.database = c.database
  limit : c'.writer.limit = c.writer.limit
  closed : c.closed = true → c'.closed = true
  lost : c'.closed = true → c.closed = true ∨ ∀ k ∈ c'.cursors, k.registered = false
  length : c'.cursors.length = c.cursors.length
  cursors : ∀ i k, c.cursors[i]? = some k → ∃ k', c'.cursors[i]? = some k' ∧
    k'.token = k.token ∧ (k'.registered = true → k.registered = true) ∧
      (¬O i → Bystander (E k.token) (c'.closed = true) k k')

namespace Spares

variable {E : Token → Prop} {O : CursorId → Prop} {c c' c'' : Connection}

@[refl] theorem refl (c : Connection) : Spares E O c c :=
  ⟨rfl, rfl, id, Or.inl, rfl, fun _ k hk => ⟨k, hk, rfl, id, fun _ => .same⟩⟩

/-- A cursor afterwards was there before. -/
theorem before (h : Spares E O c c') {k' : Cursor} {i : CursorId}
    (hk' : c'.cursors[i]? = some k') : ∃ k, c.cursors[i]? = some k ∧ k'.token = k.token ∧
      (k'.registered = true → k.registered = true) := by
  have hlt : i < c.cursors.length := h.length ▸ (List.getElem?_eq_some_iff.mp hk').choose
  obtain ⟨l, hl, ht, hr, -⟩ := h.cursors i _ (List.getElem?_eq_getElem hlt)
  obtain rfl : k' = l := Option.some.inj (hk'.symm.trans hl)
  exact ⟨_, List.getElem?_eq_getElem hlt, ht, hr⟩

/-- Nobody becomes registered. -/
theorem unregistered (h : Spares E O c c') (hc : ∀ k ∈ c.cursors, k.registered = false) :
    ∀ k ∈ c'.cursors, k.registered = false := by
  intro k' hk'
  obtain ⟨i, hi⟩ := List.mem_iff_getElem?.mp hk'
  obtain ⟨k, hk, -, hr⟩ := h.before hi
  have hkr := hc k (List.mem_of_getElem? hk)
  cases h' : k'.registered with
  | false => rfl
  | true => rw [hr h'] at hkr; cases hkr

theorem trans (h : Spares E O c c') (h' : Spares E O c' c'') :
    Spares E O c c'' where
  database := h'.database.trans h.database
  limit := h'.limit.trans h.limit
  closed := h'.closed ∘ h.closed
  lost hc := by
    rcases h'.lost hc with hc' | hc'
    · exact (h.lost hc').imp_right h'.unregistered
    · exact Or.inr hc'
  length := h'.length.trans h.length
  cursors i k hk := by
    obtain ⟨k', hk', ht, hr, hb⟩ := h.cursors i k hk
    obtain ⟨k'', hk'', ht', hr', hb'⟩ := h'.cursors i k' hk'
    rw [ht] at hb'
    exact ⟨k'', hk'', ht'.trans ht, hr ∘ hr', fun hi => (hb hi).trans (hb' hi) h'.closed⟩

/-- A change of fields other than those of the cursors. -/
theorem of_cursors_eq (hd : c'.database = c.database) (hl : c'.writer.limit = c.writer.limit)
    (hc : c'.closed = c.closed) (hk : c'.cursors = c.cursors) : Spares E O c c' :=
  ⟨hd, hl, fun h => hc.trans h, fun h => Or.inl (hc.symm.trans h), by rw [hk],
    fun i k h => ⟨k, by rw [hk]; exact h, rfl, id, fun _ => .same⟩⟩

/-- A change in which every cursor loses its registration at most. -/
theorem of_map {f : Cursor → Cursor} (hd : c'.database = c.database)
    (hl : c'.writer.limit = c.writer.limit) (hc : c.closed = true → c'.closed = true)
    (hlost : c'.closed = true → c.closed = true ∨ ∀ k ∈ c'.cursors, k.registered = false)
    (hk : c'.cursors = c.cursors.map f)
    (hf : ∀ k, Bystander (E k.token) (c'.closed = true) k (f k)) :
    Spares E O c c' :=
  ⟨hd, hl, hc, hlost, by rw [hk, List.length_map], fun i k h =>
    ⟨f k, by rw [hk, List.getElem?_map, h]; rfl, (hf k).token_eq, (hf k).registered_of,
      fun _ => hf k⟩⟩

end Spares

variable {E : Token → Prop} {O : CursorId → Prop} (c : Connection)

theorem lose_registered (e : ClientError) (k : Cursor) : (k.lose e).registered = false := by
  unfold Cursor.lose
  split
  · rfl
  next hk => exact Bool.eq_false_iff.mpr hk

theorem shutDown_spares (e : ClientError) : Spares E O c (c.shutDown e) := by
  unfold shutDown
  split
  · rfl
  · refine .of_map rfl rfl (fun _ => rfl) (fun _ => Or.inr ?_) rfl fun k => ?_
    · intro k hk
      obtain ⟨l, -, rfl⟩ := List.mem_map.mp hk
      exact lose_registered e l
    · by_cases hk : k.registered = true
      · exact .lost e rfl hk
      · rw [Cursor.lose, if_neg hk]
        exact .same

theorem deregister_spares {t : Token} (ht : E t) : Spares E O c (c.deregister t) := by
  refine .of_map rfl rfl id Or.inl rfl fun k => ?_
  unfold Cursor.deregister
  split
  next hkt =>
    by_cases hk : k.registered = true
    · exact .displaced (hkt ▸ ht) hk
    · have hself : { k with registered := false } = k := by
        rw [← Bool.eq_false_iff.mpr hk]
      rw [hself]
      exact .same
  · exact .same

theorem modify_spares {id : CursorId} (hid : O id) {f : Cursor → Cursor}
    (hf : ∀ k, (f k).token = k.token) (hr : ∀ k, (f k).registered = k.registered) :
    Spares E O c { c with cursors := c.cursors.modify id f } := by
  refine ⟨rfl, rfl, fun h => h, Or.inl, List.length_modify _ _ _, fun i k hk => ?_⟩
  by_cases hi : id = i
  · refine ⟨f k, ?_, hf k, fun h => (hr k).symm.trans h, fun h => absurd (hi ▸ hid) h⟩
    rw [hi, List.getElem?_modify_eq, hk]
    rfl
  · exact ⟨k, by rw [List.getElem?_modify_ne _ _ hi, hk], rfl, fun h => h, fun _ => .same⟩

theorem modifyInbox_spares {id : CursorId} (hid : O id) (f : Inbox → Inbox) :
    Spares E O c (c.modifyInbox id f) :=
  c.modify_spares hid (fun _ => rfl) fun _ => rfl

theorem write_spares (q : Query) : Spares E O c (c.write q).2 := by
  obtain ⟨w, hw, ⟨-, h⟩ | ⟨e, -, h⟩ | ⟨reason, h⟩⟩ := c.write_cases q
  · rw [h]; exact .of_cursors_eq rfl hw rfl rfl
  · rw [h]; exact .of_cursors_eq rfl hw rfl rfl
  · rw [h]
    have h₁ : Spares E O c { c with writer := w } := .of_cursors_eq rfl hw rfl rfl
    exact h₁.trans (shutDown_spares _ _)

theorem closeWriter_spares : Spares E O c c.closeWriter := by
  unfold closeWriter
  split
  · rfl
  · exact .of_cursors_eq rfl (c.writer.close_limit) rfl rfl

theorem close_spares : Spares E O c c.close :=
  (c.shutDown_spares _).trans (closeWriter_spares _)

theorem release_spares : Spares E O c c.release := by
  unfold release
  split
  · rfl
  · exact c.close_spares

theorem finish_spares {id : CursorId} {k : Cursor} (hk : c.cursors[id]? = some k)
    (ht : E k.token) : Spares E O c (c.finish id) := by
  have h := c.deregister_spares (O := O) ht
  simp only [finish, hk]
  split
  · exact h.trans (release_spares _)
  · exact h

theorem continueQuery_spares (t : Token) : Spares E O c (c.continueQuery t).2 := by
  unfold continueQuery
  split
  · rfl
  · split
    · exact c.write_spares _
    · rfl

theorem stop_spares (t : Token) : Spares E O c (c.stop t).2 := by
  unfold stop
  split
  · rfl
  · exact c.write_spares _

theorem collect_spares : Spares E O c c.collect := by
  unfold collect
  split
  · rfl
  · exact .of_cursors_eq rfl rfl rfl rfl

/-- A cursor whose owner is done is at most displaced or lost for the others. -/
theorem Spares.then_finish {c c' : Connection} {id : CursorId} {k : Cursor}
    (h : Spares E O c c') (hk : c.cursors[id]? = some k) (ht : E k.token) :
    Spares E O c (c'.finish id) := by
  obtain ⟨k', hk', htok, -⟩ := h.cursors id k hk
  exact h.trans (finish_spares c' hk' (htok ▸ ht))

theorem next?_spares {id : CursorId} (hid : O id)
    (ht : ∀ k, c.cursors[id]? = some k → E k.token) :
    Spares E O c (c.next? id).2 := by
  have hset (f : Inbox → Inbox) : Spares E O c (c.modifyInbox id f) :=
    c.modifyInbox_spares hid f
  unfold next?
  split
  · rfl
  next k hk =>
    split
    next s _ => exact hset fun _ => s
    next s _ => exact (hset fun _ => s).then_finish hk (ht k hk)
    next s _ => exact (hset fun _ => s).then_finish hk (ht k hk)
    · rfl
    next s _ =>
      have hc := (hset fun _ => s).trans (continueQuery_spares _ k.token)
      split
      next hq =>
        rw [hq] at hc
        exact hc
      next hq =>
        rw [hq] at hc
        exact (hc.trans (modifyInbox_spares _ hid _)).then_finish hk (ht k hk)

theorem prime?_spares {id : CursorId} (hid : O id)
    (ht : ∀ k, c.cursors[id]? = some k → E k.token) :
    Spares E O c (c.prime? id).2 := by
  unfold prime?
  split
  · rfl
  next k hk =>
    split
    · rfl
    · exact (c.modifyInbox_spares hid _).then_finish hk (ht k hk)
    · rfl

theorem closeCursor_spares {id : CursorId} (hid : O id)
    (ht : ∀ k, c.cursors[id]? = some k → E k.token) :
    Spares E O c (c.closeCursor id).2 := by
  unfold closeCursor
  split
  · rfl
  next k hk =>
    have h := (c.modifyInbox_spares (E := E) hid Inbox.close).trans
      (deregister_spares _ (ht k hk))
    split
    · split
      · exact c.release_spares
      · rfl
    · split
      · exact h.trans (close_spares _)
      · split
        · exact h
        · exact h.trans (stop_spares _ _)

def letGo (c : Connection) (id : CursorId) : Connection :=
  { c with cursors := c.cursors.modify id fun k => { k with held := false } }.collect

/-- Dropping a cursor depends on whether it is exclusive and whether it is still being answered. -/
theorem dropCursor_eq {c : Connection} {id : CursorId} {k : Cursor}
    (hk : c.cursors[id]? = some k) :
    c.dropCursor id =
      match k.inbox.isRunning, k.exclusive with
      | true, true => ((c.modifyInbox id Inbox.drop).deregister k.token).release.letGo id
      | true, false =>
        (((c.modifyInbox id Inbox.drop).deregister k.token).stop k.token).2.letGo id
      | false, true => (c.modifyInbox id Inbox.drop).release.letGo id
      | false, false => (c.modifyInbox id Inbox.drop).letGo id := by
  unfold dropCursor
  simp only [hk]
  cases k.inbox.isRunning <;> cases k.exclusive <;> rfl

theorem letGo_spares {id : CursorId} (hid : O id) : Spares E O c (c.letGo id) :=
  (c.modify_spares (f := fun k => { k with held := false }) hid (fun _ => rfl)
    fun _ => rfl).trans
    (collect_spares _)

theorem dropCursor_spares {id : CursorId} (hid : O id)
    (ht : ∀ k, c.cursors[id]? = some k → E k.token) :
    Spares E O c (c.dropCursor id) := by
  cases hk : c.cursors[id]? with
  | none =>
    simp only [dropCursor, hk]
    rfl
  | some k =>
    have h := c.modifyInbox_spares (E := E) hid Inbox.drop
    have hd := h.trans (deregister_spares _ (ht k hk))
    rw [dropCursor_eq hk]
    split
    · exact (hd.trans (release_spares _)).trans (letGo_spares _ hid)
    · exact (hd.trans (stop_spares _ k.token)).trans (letGo_spares _ hid)
    · exact (h.trans (release_spares _)).trans (letGo_spares _ hid)
    · exact h.trans (letGo_spares _ hid)

theorem drop_spares : Spares E O c c.drop := by
  have h : Spares E O c { c with held := false } := .of_cursors_eq rfl rfl rfl rfl
  exact h.trans (collect_spares _)

theorem breakWriting_spares (reason : String) : Spares E O c (c.breakWriting reason) :=
  .of_cursors_eq rfl rfl rfl rfl

theorem receive_token (f : Frame) (k : Cursor) : (k.receive f).token = k.token := by
  unfold Cursor.receive
  split
  · split <;> rfl
  · rfl

theorem receive_registered (f : Frame) (k : Cursor) (h : (k.receive f).registered = true) :
    k.registered = true := by
  unfold Cursor.receive at h
  split at h
  next hk => exact hk.1
  · exact h

theorem getElem?_route {c : Connection} {i : CursorId} {k : Cursor} (f : Frame)
    (hk : c.cursors[i]? = some k) : (c.route f).cursors[i]? = some (k.receive f) := by
  simp only [route, List.getElem?_map, hk, Option.map_some]

theorem route_spares (f : Frame)
    (hf : ∀ i k, c.cursors[i]? = some k → k.registered = true → k.token = f.token → O i) :
    Spares E O c (c.route f) := by
  refine ⟨rfl, rfl, fun h => h, Or.inl, List.length_map _,
    fun i k hk => ⟨k.receive f, getElem?_route f hk, receive_token f k, receive_registered f k,
      fun hi => ?_⟩⟩
  have hnot : ¬(k.registered = true ∧ k.token = f.token) := fun h => hi (hf i k hk h.1 h.2)
  rw [Cursor.receive, if_neg hnot]
  exact .same

end Connection

theorem QueryOptions.isNoreply_withDefaultDb (o : QueryOptions) (db : Option String) :
    (o.withDefaultDb db).isNoreply = o.isNoreply := by
  unfold withDefaultDb
  split
  · split
    · rfl
    · simp only [isNoreply, get?, setDb, set]
      rw [Fields.get?_insert_of_ne _ _ (by decide)]
  · rfl

namespace Connection

variable {E : Token → Prop} {O : CursorId → Prop} (c : Connection)

/-- A request that asks for a cursor is refused, or it adds a cursor as the only one that is
registered under its token. -/
def Asks (E : Token → Prop) (O : CursorId → Prop) (noreply : Bool) (q : Query) (c : Connection)
    (r : Except ClientError CursorId × Connection) : Prop :=
  (∃ e, r.1 = .error e ∧ Spares E O c r.2 ∧ r.2.tokens = c.tokens.take.2 ∧
      r.2.written = c.written) ∨
    ∃ c₁ k, r = (.ok c.cursors.length, (c₁.addCursor k).2) ∧ Spares E O c c₁ ∧
      c₁.closed = c.closed ∧ c₁.tokens = c.tokens.take.2 ∧ c₁.written = c.written ++ [q] ∧
      q.refusal? c.writer.limit = none ∧ k.New c.tokens.next noreply ∧
      (noreply = false → ∀ l ∈ c₁.cursors, l.token = k.token → l.registered = false)

theorem shutDown_written (e : ClientError) : (c.shutDown e).written = c.written := by
  unfold shutDown
  split <;> rfl

theorem shutDown_tokens (e : ClientError) : (c.shutDown e).tokens = c.tokens := by
  unfold shutDown
  split <;> rfl

theorem registered_of_mem_deregister {t : Token} {l : Cursor}
    (hl : l ∈ (c.deregister t).cursors) (ht : l.token = t) : l.registered = false := by
  simp only [deregister, List.mem_map, Cursor.deregister] at hl
  obtain ⟨k, -, rfl⟩ := hl
  by_cases hk : k.token = t
  · rw [if_pos hk]
  · rw [if_neg hk] at ht
    exact absurd ht hk

/-- What a request for a cursor comes to, once its token is taken. -/
theorem asks_of_write {noreply : Bool} {q : Query} {k : Cursor} {c₀ : Connection}
    (h₀ : Spares E O c c₀) (ht₀ : c₀.tokens = c.tokens.take.2) (hw₀ : c₀.written = c.written)
    (hc₀ : c₀.closed = c.closed)
    (hk : k.New c.tokens.next noreply)
    (hr : noreply = false → ∀ l ∈ c₀.cursors, l.token = k.token → l.registered = false) :
    Asks E O noreply q c
      (match c₀.write q with
        | (some e, c) => (.error e, c)
        | (none, c) => (.ok (c.addCursor k).1, (c.addCursor k).2)) := by
  obtain ⟨w, hw, ⟨hq, h⟩ | ⟨e, -, h⟩ | ⟨reason, h⟩⟩ := c₀.write_cases q
  · right
    have h₁ : Spares E O c₀ { c₀ with writer := w, written := c₀.written ++ [q] } :=
      .of_cursors_eq rfl hw rfl rfl
    rw [h]
    refine ⟨_, k, ?_, h₀.trans h₁, hc₀, ht₀, by rw [hw₀], ?_, hk, hr⟩
    · rw [← h₀.length]
      rfl
    · rw [← h₀.limit, ← hw, hq]
  · left
    have h₁ : Spares E O c₀ { c₀ with writer := w } := .of_cursors_eq rfl hw rfl rfl
    rw [h]
    exact ⟨e, rfl, h₀.trans h₁, ht₀, hw₀⟩
  · left
    have h₁ := h₀.trans (write_spares c₀ q)
    rw [h] at h₁ ⊢
    exact ⟨_, rfl, h₁, (shutDown_tokens _ _).trans ht₀, (shutDown_written _ _).trans hw₀⟩

theorem takeToken_spares : Spares E O c { c with tokens := c.tokens.take.2 } :=
  .of_cursors_eq rfl rfl rfl rfl

theorem ask_cases (term : Term) (exclusive : Bool) (q : Token → Query) (ht : E c.tokens.next)
    (ho : c.closed = false) : Asks E O false (q c.tokens.next) c (c.ask term exclusive q) := by
  have h₀ : Spares E O c (({ c with tokens := c.tokens.take.2 } : Connection).deregister
      c.tokens.next) := c.takeToken_spares.trans (deregister_spares _ ht)
  rw [ask_eq ho]
  exact c.asks_of_write (k := ⟨c.tokens.next, term, exclusive, .start, true, true⟩) h₀ rfl
    rfl rfl ⟨rfl, rfl, rfl⟩ fun _ _ hl => registered_of_mem_deregister _ hl

def startOf (c : Connection) (term : Term) (options : QueryOptions) : Query :=
  .start c.tokens.next term (options.withDefaultDb c.database)

theorem query_cases (term : Term) (options : QueryOptions) (exclusive : Bool)
    (ht : E c.tokens.next) (ho : c.closed = false) :
    Asks E O options.isNoreply (c.startOf term options) c (c.query term options exclusive) := by
  unfold query
  rw [if_neg (by rw [ho]; decide)]
  dsimp only
  rw [QueryOptions.isNoreply_withDefaultDb]
  cases options.isNoreply with
  | true =>
    exact c.asks_of_write (k := ⟨c.tokens.next, term, exclusive, .finished, false, true⟩)
      c.takeToken_spares rfl rfl rfl ⟨rfl, rfl, rfl⟩ fun h => by cases h
  | false =>
    exact c.ask_cases term exclusive
      (fun token => .start token term (options.withDefaultDb c.database)) ht ho

theorem noreplyWait_cases (ht : E c.tokens.next) (ho : c.closed = false) :
    Asks E O false (.bare c.tokens.next .noreplyWait) c c.noreplyWait := by
  simp only [noreplyWait, ho, Bool.false_eq_true, if_false]
  exact c.ask_cases _ _ _ ht ho

/-- The tokens under which an action may end registrations. -/
def Action.Ends (c : Connection) : Action → Token → Prop
  | .query .., t | .noreplyWait, t => t = c.tokens.next
  | .next id, t | .prime id, t | .closeCursor id, t | .dropCursor id, t =>
    ∃ k, c.cursors[id]? = some k ∧ k.token = t
  | _, _ => False

/-- A cursor is the one of an action if its owner acts, or if a frame arrives for it. -/
def Action.Owns (c : Connection) (a : Action) (i : CursorId) : Prop :=
  a.cursor? = some i ∨ ∃ f k, a.frame? = some f ∧ c.cursors[i]? = some k ∧
    k.registered = true ∧ k.token = f.token

def Action.request? (c : Connection) : Action → Option Query
  | .query term options _ => some (c.startOf term options)
  | .noreplyWait => some (.bare c.tokens.next .noreplyWait)
  | _ => none

def Action.isNoreply : Action → Bool
  | .query _ options _ => options.isNoreply
  | _ => false

theorem ends_of_request {a : Action} {q : Query} (hq : a.request? c = some q) :
    a.Ends c c.tokens.next := by
  cases a with
  | query | noreplyWait => rfl
  | _ => cases hq

/-- A closed connection grants no request. -/
theorem act_of_closed {a : Action} {q : Query} (hc : c.closed = true)
    (hq : a.request? c = some q) : c.act a = (.done (some .connectionClosed), c) := by
  cases a with
  | query term options exclusive => simp only [act, query, hc, if_true, errorOf]
  | noreplyWait => simp only [act, noreplyWait, hc, if_true, errorOf]
  | _ => cases hq

/-- The connection when a request has taken its token. Whoever still had the token loses it, unless
no answer is wanted. -/
def prepare (noreply : Bool) : Connection :=
  let c' : Connection := { c with tokens := c.tokens.take.2 }
  if noreply then c' else c'.deregister c.tokens.next

@[simp] theorem prepare_closed (noreply : Bool) : (c.prepare noreply).closed = c.closed := by
  cases noreply <;> rfl

@[simp] theorem prepare_writer (noreply : Bool) : (c.prepare noreply).writer = c.writer := by
  cases noreply <;> rfl

@[simp] theorem prepare_written (noreply : Bool) : (c.prepare noreply).written = c.written := by
  cases noreply <;> rfl

@[simp] theorem prepare_writeClosed (noreply : Bool) :
    (c.prepare noreply).writeClosed = c.writeClosed := by
  cases noreply <;> rfl

theorem prepare_spares {noreply : Bool} (ht : E c.tokens.next) :
    Spares E O c (c.prepare noreply) := by
  have h : Spares E O c { c with tokens := c.tokens.take.2 } := c.takeToken_spares
  cases noreply with
  | true => exact h
  | false => exact h.trans (deregister_spares _ ht)

/-- What a request gives: the error met when it was written, or a cursor. -/
def granted (k : Cursor) : Option ClientError × Connection → Reply × Connection
  | (some e, c) => (.done (some e), c)
  | (none, c) => (.done none, (c.addCursor k).2)

theorem granted_eq (k : Cursor) (r : Option ClientError × Connection) :
    granted k r =
      let r' : Except ClientError CursorId × Connection := match r with
        | (some e, c) => (.error e, c)
        | (none, c) => (.ok (c.addCursor k).1, (c.addCursor k).2)
      (.done (errorOf r'.1), r'.2) := by
  obtain ⟨_ | _, _⟩ := r <;> rfl

/-- An open connection writes a request, and its cursor is added if that succeeds. -/
theorem act_of_request {a : Action} {q : Query} (ho : c.closed = false)
    (hq : a.request? c = some q) : ∃ k : Cursor, k.New c.tokens.next a.isNoreply ∧
      c.act a = granted k ((c.prepare a.isNoreply).write q) := by
  have hopen : ¬c.closed = true := by rw [ho]; decide
  cases a with
  | query term options exclusive =>
    obtain rfl := Option.some.inj hq
    simp only [act, query, if_neg hopen, QueryOptions.isNoreply_withDefaultDb, Action.isNoreply]
    cases options.isNoreply with
    | true =>
      exact ⟨⟨c.tokens.next, term, exclusive, .finished, false, true⟩, ⟨rfl, rfl, rfl⟩,
        (granted_eq _ _).symm⟩
    | false =>
      simp only [Bool.false_eq_true, if_false, ask_eq ho]
      exact ⟨⟨c.tokens.next, term, exclusive, .start, true, true⟩, ⟨rfl, rfl, rfl⟩,
        (granted_eq _ _).symm⟩
  | noreplyWait =>
    obtain rfl := Option.some.inj hq
    simp only [act, noreplyWait, if_neg hopen, ask_eq ho]
    exact ⟨⟨c.tokens.next, .anything, false, .start, true, true⟩, ⟨rfl, rfl, rfl⟩,
      (granted_eq _ _).symm⟩
  | _ => cases hq

/-- An action asks for a cursor and gets it. -/
structure Asked (E : Token → Prop) (O : CursorId → Prop) (c : Connection) (a : Action)
    (k : Cursor) (c₁ : Connection) : Prop where
  after : c.after a = (c₁.addCursor k).2
  reply : (c.act a).1 = .done none
  spares : Spares E O c c₁
  closed : c₁.closed = false
  tokens : c₁.tokens = c.tokens.take.2
  written : ∃ q, a.request? c = some q ∧ c₁.written = c.written ++ [q]
  new : k.New c.tokens.next a.isNoreply
  only : a.isNoreply = false → ∀ l ∈ c₁.cursors, l.token = k.token → l.registered = false

theorem asked_of_asks {a : Action} {q : Query} {r : Except ClientError CursorId × Connection}
    (ha : c.act a = (.done (errorOf r.1), r.2)) (hq : a.request? c = some q)
    (ho : c.closed = false) (h : Asks E O a.isNoreply q c r) :
    (Spares E O c (c.after a) ∧ ∃ e, (c.act a).1 = .done (some e)) ∨
      ∃ k c₁, Asked E O c a k c₁ := by
  have hafter : c.after a = r.2 := by rw [Connection.after, ha]
  rcases h with ⟨e, he, hs, -⟩ | ⟨c₁, k, rfl, hs, hc, ht, hw, -, hk, hl⟩
  · exact Or.inl ⟨hafter ▸ hs, e, by rw [ha, he]; rfl⟩
  · exact Or.inr ⟨k, c₁, hafter, by rw [ha]; rfl, hs, hc.trans ho, ht, ⟨q, hq, hw⟩, hk, hl⟩

/-- A request for a cursor fails, or the cursor is there. -/
theorem request_cases {a : Action} {q : Query} (hq : a.request? c = some q) :
    (Spares (a.Ends c) (a.Owns c) c (c.after a) ∧ ∃ e, (c.act a).1 = .done (some e)) ∨
      ∃ k c₁, Asked (a.Ends c) (a.Owns c) c a k c₁ := by
  cases a with
  | query term options exclusive =>
    cases ho : c.closed with
    | true =>
      left
      simp only [after, act, query, ho, if_true]
      exact ⟨by rfl, _, rfl⟩
    | false => exact c.asked_of_asks rfl hq ho (by
        obtain rfl := Option.some.inj hq
        exact c.query_cases term options exclusive rfl ho)
  | noreplyWait =>
    cases ho : c.closed with
    | true =>
      left
      simp only [after, act, noreplyWait, ho, if_true]
      exact ⟨by rfl, _, rfl⟩
    | false => exact c.asked_of_asks rfl hq ho (by
        obtain rfl := Option.some.inj hq
        exact c.noreplyWait_cases rfl ho)
  | _ => cases hq

/-- An action spares the cursors of others, and may ask for another cursor besides. -/
theorem after_cases (a : Action) :
    Spares (a.Ends c) (a.Owns c) c (c.after a) ∨
      ∃ k c₁, Asked (a.Ends c) (a.Owns c) c a k c₁ := by
  have hown {id : CursorId} (h : a.cursor? = some id) : a.Owns c id := Or.inl h
  cases a with
  | query term options exclusive => exact (c.request_cases rfl).imp_left And.left
  | noreplyWait => exact (c.request_cases rfl).imp_left And.left
  | next id => exact Or.inl (c.next?_spares (hown rfl) fun k hk => ⟨k, hk, rfl⟩)
  | prime id => exact Or.inl (c.prime?_spares (hown rfl) fun k hk => ⟨k, hk, rfl⟩)
  | closeCursor id => exact Or.inl (c.closeCursor_spares (hown rfl) fun k hk => ⟨k, hk, rfl⟩)
  | dropCursor id => exact Or.inl (c.dropCursor_spares (hown rfl) fun k hk => ⟨k, hk, rfl⟩)
  | continueQuery t => exact Or.inl (c.continueQuery_spares t)
  | stop t => exact Or.inl (c.stop_spares t)
  | close => exact Or.inl c.close_spares
  | drop => exact Or.inl c.drop_spares
  | report event =>
    left
    cases event with
    | frame f => exact c.route_spares f fun i k hk hr ht => Or.inr ⟨f, k, rfl, hk, hr, ht⟩
    | failed e => exact c.shutDown_spares _
    | ended => exact c.shutDown_spares _
  | breakWriting reason => exact Or.inl (c.breakWriting_spares reason)

end Connection
end Reql
