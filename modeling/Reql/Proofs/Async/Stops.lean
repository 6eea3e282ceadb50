import Reql.Proofs.Async.Shape

/-! Requests to stop: those that the writer has got, and those that are still to come. -/
namespace Reql

/-- Whether a request asks to stop the query under a token. -/
def Query.isStop (t : Token) (q : Query) : Bool :=
  q.type == .stop && q.token == t

theorem Query.isStop_bare (t u : Token) : (bare u .stop).isStop t = (u == t) := by
  simp [isStop, bare]

namespace Async

/-- Requests to stop the query under a token that have been written or wait in the buffer. -/
def Store.stops (t : Token) (s : Store) : Nat :=
  (s.conn.written ++ s.accepted).countP (·.isStop t)

/-- Whether giving up a cursor takes a request to stop: its query runs, and it has a connection
with others. -/
def Store.isStoppable (t : Token) (s : Store) (id : CursorId) : Bool :=
  s.conn.cursors[id]?.any fun k => k.token == t && !k.exclusive && k.inbox.isRunning

namespace Point

/-- The requests to stop that a section leads to. What is left to another computation needs a
runtime. -/
def stops (t : Token) (runtime : Bool) : Point → Nat
  | halt u => (u == t).toNat
  | spawnStop u => (runtime && u == t).toNat
  | write q _ => (q.isStop t).toNat
  | await m _ | feed m _ => (m.query.isStop t).toNat
  | _ => 0

/-- The request to stop that has been accepted and that a section writes. -/
def flushes (t : Token) : Point → Nat
  | flush m _ => (m.query.isStop t).toNat
  | _ => 0

/-- The cursor that a section gives up, if it goes on to stop its query. -/
def parts? (runtime : Bool) : Point → Option CursorId
  | close id => some id
  | leave id => if runtime then some id else none
  | _ => none

end Point

namespace Store

variable (t : Token) (s : Store) (id : CursorId) (w : FrameWriter)

@[simp] theorem setWriter_stops : (s.setWriter w).stops t = s.stops t := by
  unfold setWriter stops
  split <;> simp

@[simp] theorem accept_stops (q : Query) :
    (s.accept q w).stops t = s.stops t + (q.isStop t).toNat := by
  unfold accept stops
  cases h : q.isStop t <;> simp [h, ← List.append_assoc]

@[simp] theorem onCursor_stops (f : Cursor → Cursor) (g : Cursor → List Point) :
    (s.onCursor id f g).store.stops t = s.stops t :=
  s.onCursor_kept id f g (fun s' => s'.stops t = s.stops t) rfl fun _ => rfl

end Store

namespace Point

variable {t : Token} {runtime : Bool} {pick : Nat} {s : Store} {id : CursorId} {p : Point}

/-- Nothing of it leads to a request to stop. -/
theorem stops_finish (k : Cursor) : ((finish k).map (stops t runtime)).sum = 0 := by
  unfold finish
  cases k.exclusive <;> rfl

theorem stops_afterRead (k : Cursor) : ((afterRead id k).map (stops t runtime)).sum = 0 := by
  rcases afterRead_cases id k with ⟨r, h⟩ | ⟨r, h⟩ | h <;> rw [h]
  · rfl
  · rw [List.map_append, List.sum_append, stops_finish]
    rfl
  · rfl

theorem stops_afterPrime (k : Cursor) : ((afterPrime k).map (stops t runtime)).sum = 0 := by
  rcases afterPrime_cases k with ⟨r, h⟩ | ⟨r, h⟩ <;> rw [h]
  · rfl
  · rw [List.map_append, List.sum_append, stops_finish]
    rfl

theorem stops_afterClose (k : Cursor) : ((afterClose k).map (stops t runtime)).sum =
    (k.token == t && !k.exclusive && k.inbox.isRunning).toNat := by
  unfold afterClose Inbox.isRunning
  cases k.inbox.closed <;> cases k.exclusive <;> cases k.inbox.serverDone <;> simp [stops]

theorem stops_afterLeave (k : Cursor) : ((afterLeave id k).map (stops t runtime)).sum =
    (runtime && (k.token == t && !k.exclusive && k.inbox.isRunning)).toNat := by
  unfold afterLeave
  cases k.inbox.isRunning <;> cases k.exclusive <;> simp [stops]

theorem stops_afterFault (e : FramingError) (p : Purpose) :
    ((afterFault e p).map (stops t runtime)).sum = 0 := by
  unfold afterFault
  split <;> rfl

theorem stops_onCursor (f : Cursor → Cursor) (g : Cursor → List Point)
    (hg : ∀ k, ((g k).map (stops t runtime)).sum = 0) :
    ((s.onCursor id f g).next.map (stops t runtime)).sum = 0 :=
  onCursor_next (P := fun ps => (ps.map (stops t runtime)).sum = 0) f rfl hg

theorem length_of_stop {q : Query} (hq : q.isStop t = true) {payload : Bytes}
    (hpayload : q.payload = .ok payload) : payload.length = 3 := by
  obtain ⟨u, type, term, options⟩ := q
  obtain rfl : type = .stop := by simpa [Query.isStop] using (Bool.and_eq_true_iff.mp hq).1
  obtain rfl := Except.ok.inj hpayload
  exact QueryType.stop.length_encode

theorem payload_of_stop {q : Query} (hq : q.isStop t = true) :
    ∃ payload, q.payload = .ok payload := by
  obtain ⟨u, type, term, options⟩ := q
  obtain rfl : type = .stop := by simpa [Query.isStop] using (Bool.and_eq_true_iff.mp hq).1
  exact ⟨_, rfl⟩

/-- A section neither adds nor loses a request to stop, but for the one by which it gives a cursor
up. Where one is lost, the connection is closed at once, or has never taken any request. -/
structure Balanced (t : Token) (runtime : Bool) (s : Store) (p : Point) (u : Turn) : Prop where
  le : u.store.stops t + (u.next.map (stops t runtime)).sum + (u.spawned.map (stops t true)).sum ≤
    s.stops t + p.stops t runtime + ((p.parts? runtime).any (s.isStoppable t)).toNat
  eq : u.store.stops t + (u.next.map (stops t runtime)).sum + (u.spawned.map (stops t true)).sum =
      s.stops t + p.stops t runtime + ((p.parts? runtime).any (s.isStoppable t)).toNat ∨
    u.store.conn.closed = true ∨ (∃ q ∈ u.next, q.closes = true) ∨ s.conn.writer.limit.bytes < 3

theorem Balanced.of_eq {u : Turn} (h : u.store.stops t + (u.next.map (stops t runtime)).sum +
    (u.spawned.map (stops t true)).sum =
      s.stops t + p.stops t runtime + ((p.parts? runtime).any (s.isStoppable t)).toNat) :
    Balanced t runtime s p u :=
  ⟨Nat.le_of_eq h, .inl h⟩

theorem Balanced.answer {u : Turn} (h : Balanced t runtime s p u) (r : Connection.Reply) :
    Balanced t runtime s p (u.answer r) :=
  ⟨h.le, h.eq⟩

/-- A section on a cursor that is not given up. -/
theorem balanced_onCursor (f : Cursor → Cursor) {g : Cursor → List Point}
    (hg : ∀ k, ((g k).map (stops t runtime)).sum = 0) (hstops : p.stops t runtime = 0)
    (hparts : p.parts? runtime = none) : Balanced t runtime s p (s.onCursor id f g) := by
  refine .of_eq ?_
  rw [Store.onCursor_stops, stops_onCursor f g hg, Store.onCursor_spawned, hstops, hparts]
  rfl

/-- A section by which a cursor is given up. -/
theorem balanced_parting (stopping : Bool) (f : Cursor → Cursor) {g : Cursor → List Point}
    (hg : ∀ k, ((g k).map (stops t runtime)).sum = (stopping &&
      (k.token == t && !k.exclusive && k.inbox.isRunning)).toNat)
    (hparts : p.parts? runtime = if stopping then some id else none)
    (hstops : p.stops t runtime = 0) : Balanced t runtime s p (s.onCursor id f g) := by
  refine .of_eq ?_
  rw [Store.onCursor_stops, Store.onCursor_spawned, hstops, hparts]
  unfold Store.onCursor
  cases hk : s.conn.cursors[id]? with
  | none => cases stopping <;> simp [Store.isStoppable, hk]
  | some k => cases stopping <;> simp [Store.isStoppable, hk, hg k]

theorem balanced_feed (m : Message) (q : Purpose) :
    Balanced t runtime s (.feed m q) ((feed m q).exec runtime pick s) := by
  simp only [exec]
  have hlimit := s.conn.writer.makeRoom_limit
  cases hroom : s.conn.writer.makeRoom with
  | mk e w =>
    rw [hroom] at hlimit
    cases e with
    | some e =>
      obtain ⟨reason, he⟩ := FrameWriter.makeRoom_error (congrArg Prod.fst hroom)
      exact ⟨by simp [stops_afterFault, Nat.add_assoc], .inr (.inr (.inl (closes_afterFault he q)))⟩
    | none =>
      dsimp only
      rcases m.frame.encode_eq w.limit w.buffer with ⟨e, hrefused, he⟩ | ⟨-, bytes, he⟩ <;> rw [he]
      · refine ⟨by simp [stops_afterFault, Nat.add_assoc], ?_⟩
        cases hstop : m.query.isStop t with
        | false => exact .inl (by simp [stops_afterFault, stops, parts?, hstop])
        | true =>
          have hthree := length_of_stop hstop m.encoded
          refine .inr (.inr (.inr ?_))
          unfold Frame.refusal? at hrefused
          split at hrefused
          next hlt => rwa [← hlimit, ← hthree]
          next => cases hrefused
      · refine .of_eq ?_
        simp [stops, parts?]

theorem exec_stops (t : Token) (runtime : Bool) (pick : Nat) (s : Store) (p : Point) :
    Balanced t runtime s p (p.exec runtime pick s) := by
  cases p with
  | read => exact balanced_onCursor _ stops_afterRead rfl rfl
  | prime => exact balanced_onCursor _ stops_afterPrime rfl rfl
  | close id => exact balanced_parting true _ stops_afterClose rfl rfl
  | leave id => exact balanced_parting runtime _ stops_afterLeave rfl rfl
  | letGo | deliver | reject => exact balanced_onCursor _ (fun _ => rfl) rfl rfl
  | feed m q => exact balanced_feed m q
  | wrote error q =>
    cases q <;> cases error
    case query.none token id =>
      refine .answer ?_ _
      exact balanced_onCursor _ (fun _ => rfl) rfl rfl
    case fetch.some e =>
      refine balanced_onCursor _ (fun k => ?_) rfl rfl
      rw [List.map_append, List.sum_append, stops_finish]
      rfl
    all_goals exact .of_eq rfl
  | flush m q =>
    simp only [exec]
    cases hflush : s.conn.writer.flush with
    | mk e w =>
      cases e with
      | some e =>
        obtain ⟨reason, he⟩ := FrameWriter.flush_error (congrArg Prod.fst hflush)
        have hcloses := closes_afterFault he q
        exact ⟨by simp [stops_afterFault, Nat.add_assoc], .inr (.inr (.inl hcloses))⟩
      | none => exact .of_eq (by simp [stops, parts?])
  | halt u =>
    simp only [exec]
    split
    next hc => exact ⟨by simp [stops, Nat.add_assoc], .inr (.inl hc)⟩
    next => exact .of_eq (by simp [stops, parts?, Query.isStop_bare])
  | write q p =>
    simp only [exec]
    split
    next payload hpayload => exact .of_eq (by simp [stops, parts?])
    next e he =>
      cases hstop : q.isStop t with
      | false => exact .of_eq (by simp [stops, parts?, hstop])
      | true =>
        obtain ⟨payload, hpayload⟩ := payload_of_stop hstop
        rw [hpayload] at he
        cases he
  | spawnStop u =>
    cases runtime <;> exact .of_eq (by simp [exec, stops, parts?])
  | endWriting => exact .of_eq (by simp [exec, stops, parts?])
  | take r | recheck _ _ r =>
    simp only [exec]
    split <;> cases r <;> exact .of_eq rfl
  | _ =>
    simp only [exec]
    repeat' split
    all_goals exact .of_eq rfl

theorem setWriter_accepted_le (s : Store) (w : FrameWriter) :
    (s.setWriter w).accepted.countP (·.isStop t) ≤ s.accepted.countP (·.isStop t) := by
  unfold Store.setWriter
  split
  · exact Nat.zero_le _
  · exact Nat.le_refl _

theorem flushes_onCursor (f : Cursor → Cursor) (g : Cursor → List Point) :
    (s.onCursor id f g).store.accepted.countP (·.isStop t) + 0 ≤
      s.accepted.countP (·.isStop t) + ((s.onCursor id f g).next.map (flushes t)).sum := by
  rw [Store.onCursor_accepted]
  exact Nat.le_add_right _ _

/-- What is accepted is still to be written, or it has been, or the stream has failed. -/
theorem exec_accepted (t : Token) (runtime : Bool) (pick : Nat) (s : Store) (p : Point) :
    let u := p.exec runtime pick s
    u.store.accepted.countP (·.isStop t) + p.flushes t ≤
      s.accepted.countP (·.isStop t) + (u.next.map (flushes t)).sum ∨
    u.store.accepted = [] ∨ ∃ q ∈ u.next, q.closes = true := by
  cases p with
  | read | prime | close | leave | letGo | deliver | reject => exact .inl (flushes_onCursor _ _)
  | wrote error q =>
    cases q <;> cases error
    case query.none => exact .inl (flushes_onCursor _ _)
    case fetch.some e => exact .inl (flushes_onCursor _ _)
    all_goals exact .inl (Nat.le_add_right _ _)
  | feed m q =>
    simp only [exec]
    cases hroom : s.conn.writer.makeRoom with
    | mk e w =>
      have hle := setWriter_accepted_le (t := t) s w
      cases e with
      | some e =>
        obtain ⟨reason, he⟩ := FrameWriter.makeRoom_error (congrArg Prod.fst hroom)
        exact .inr (.inr (closes_afterFault he q))
      | none =>
        dsimp only
        left
        split
        next => exact Nat.le_add_right_of_le hle
        next bytes _ =>
          simp only [Store.accept, Store.pass_store, Store.pass_next, List.countP_append,
            List.countP_singleton, List.map_singleton, List.sum_singleton, flushes, add_zero]
          cases m.query.isStop t <;> simpa using hle
  | flush m q =>
    simp only [exec]
    cases hflush : s.conn.writer.flush with
    | mk e w =>
      cases e with
      | some e =>
        obtain ⟨reason, he⟩ := FrameWriter.flush_error (congrArg Prod.fst hflush)
        exact .inr (.inr (closes_afterFault he q))
      | none =>
        have hempty := FrameWriter.buffer_of_flush hflush
        exact .inr (.inl (by simp [Store.setWriter, hempty]))
  | endWriting => exact .inl (Nat.le_add_right_of_le (setWriter_accepted_le s _))
  | _ =>
    left
    simp only [exec]
    repeat' split
    all_goals exact Nat.le_add_right _ _

theorem exec_stops_of_isIncoming (h : p.isIncoming = true) :
    (p.exec runtime pick s).store.stops t = s.stops t := by
  have hkept := incoming_sparesWriter runtime pick s h
  rw [Store.stops, hkept.written, hkept.accepted, Store.stops]

end Point

namespace State

variable {s : State} {a : Action} {j : TaskId} {τ : Task} {p : Point} {rest : List Point}
  {t : Token}

/-- Requests to stop the query under a token: those the writer has got, and those still to come. -/
def stops (t : Token) (s : State) : Nat :=
  s.store.stops t + s.total (Point.stops t)

/-- Whether an action gives up a cursor whose query is to be stopped. -/
def givesUp (s : State) (t : Token) : Action → Bool
  | .step j _ => (s.next? j).any fun (τ, p, _) =>
    (p.parts? τ.runtime).any (s.store.isStoppable t)
  | _ => false

theorem stops_opening {runtime : Bool} {call : Connection.Action} (h : call ≠ .stop t) :
    ((opening call).map (Point.stops t runtime)).sum = 0 := by
  cases call with
  | stop u =>
    have hu : (u == t) = false := by simpa using h
    simp [opening, Point.stops, hu]
  | _ => rfl

theorem stops_advance (h : s.next? j = some (τ, p, rest)) (pick : Nat) :
    let u := p.exec τ.runtime pick s.store
    (s.advance j τ rest u).stops t + s.store.stops t + p.stops t τ.runtime = s.stops t +
      (u.store.stops t + (u.next.map (Point.stops t τ.runtime)).sum +
        (u.spawned.map (Point.stops t true)).sum) := by
  intro u
  have htotal := total_advance (t := u) (Point.stops t) h
  simp only [stops, show (s.advance j τ rest u).store = u.store from rfl]
  omega

/-- No action adds a request to stop but one by which a cursor is given up, and a call that asks
for it. -/
theorem stops_after_le (hr : Regular s) (ha : ∀ runtime, a ≠ .begin (.stop t) runtime) :
    (s.after a).stops t ≤ s.stops t + (s.givesUp t a).toNat := by
  cases a with
  | begin call runtime =>
    have hcall : call ≠ .stop t := fun h => ha runtime (by rw [h])
    rcases s.begin_cases runtime call with h | ⟨-, h⟩ | ⟨c, rfl, -, h⟩ | ⟨reason, -, h⟩ |
      ⟨event, -, h⟩ <;> rw [after, h]
    case inr.inl =>
      refine Nat.le_add_right_of_le ?_
      simp only [stops, total_launch, stops_opening hcall]
      exact Nat.le_refl _
    all_goals exact Nat.le_add_right _ _
  | step j pick =>
    rcases s.step_cases j pick with h | ⟨τ, p, rest, hnext, h⟩ <;> rw [after, h]
    · exact Nat.le_add_right _ _
    · have hle := (Point.exec_stops t τ.runtime pick s.store p).le
      have hadvance := stops_advance (t := t) hnext pick
      simp only [givesUp, hnext, Option.any_some]
      dsimp only at hadvance
      omega
  | handle pick =>
    rcases s.handle_cases pick with h | ⟨p, rest, u, htodo, rfl, h⟩ <;> rw [after, h]
    · exact Nat.le_add_right _ _
    · simp only [stops, Point.exec_stops_of_isIncoming (hr.handler p (htodo ▸ List.mem_cons_self))]
      exact Nat.le_add_right _ _
  | abandon j =>
    refine Nat.le_add_right_of_le ?_
    have := s.total_abandon_le (Point.stops t) j
    simp only [stops, after, abandon_store]
    omega
  | collect =>
    rcases s.collect_cases with h | h <;> rw [after, h] <;> exact Nat.le_add_right _ _

/-- Whether a computation has yet to write a request to stop the query under a token. -/
def carries (s : State) (t : Token) (j : TaskId) : Prop :=
  ∃ τ, s.tasks[j]? = some τ ∧ ∃ p ∈ τ.todo, 0 < p.stops t τ.runtime + p.flushes t

/-- No action loses a request to stop, but one that gives up the computation which has it; or the
connection is closed. -/
theorem le_stops_after (hr : Regular s) (hlimit : 3 ≤ s.conn.writer.limit.bytes)
    (ha : ∀ l, a = .abandon l → ¬s.carries t l) :
    s.stops t + (s.givesUp t a).toNat ≤ (s.after a).stops t ∨ Doomed (s.after a) := by
  cases a with
  | begin call runtime =>
    left
    rcases s.begin_cases runtime call with h | ⟨-, h⟩ | ⟨c, rfl, -, h⟩ | ⟨reason, -, h⟩ |
      ⟨event, -, h⟩ <;> rw [after, h]
    case inr.inl =>
      simp only [stops, total_launch, ← Nat.add_assoc]
      exact Nat.le_add_right _ _
    all_goals exact Nat.le_refl _
  | step j pick =>
    cases hnext : s.next? j with
    | none =>
      left
      simp only [after, step, givesUp, hnext]
      exact Nat.le_refl _
    | some x =>
      obtain ⟨τ, p, rest⟩ := x
      rw [after, step_of_next? hnext]
      have heq := (Point.exec_stops t τ.runtime pick s.store p).eq
      have hadvance := stops_advance (t := t) hnext pick
      rcases heq with heq | hc | hc | hlt
      · left
        simp only [givesUp, hnext, Option.any_some]
        dsimp only at hadvance
        omega
      · exact .inr (doomed_advance hnext (.inl hc))
      · exact .inr (doomed_advance hnext (.inr hc))
      · exact absurd hlt (Nat.not_lt.mpr hlimit)
  | handle pick =>
    left
    rcases s.handle_cases pick with h | ⟨p, rest, u, htodo, rfl, h⟩ <;> rw [after, h]
    · exact Nat.le_refl _
    · simp only [stops, Point.exec_stops_of_isIncoming (hr.handler p (htodo ▸ List.mem_cons_self))]
      exact Nat.le_refl _
  | abandon j =>
    left
    have hzero : ∀ τ, s.tasks[j]? = some τ → ∀ p ∈ τ.todo, p.stops t τ.runtime = 0 := by
      intro τ hτ p hp
      refine Nat.eq_zero_of_not_pos fun hpos => ha j rfl ⟨τ, hτ, p, hp, ?_⟩
      exact Nat.add_pos_left hpos _
    simp only [stops, after, abandon_store, total_abandon fun τ hτ _ => hzero τ hτ]
    exact Nat.le_refl _
  | collect =>
    left
    rcases s.collect_cases with h | h <;> rw [after, h] <;> exact Nat.le_refl _

end State
end Async
end Reql
