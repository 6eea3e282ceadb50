import Reql.Proofs.Connection.Effect

/-! What happens to one cursor in the course of a run of its connection. -/
namespace Reql

namespace Cursor

/-- The event of a cursor that has become `k'` although its owner did nothing. -/
def loss? (k k' : Cursor) : Option Event :=
  if k.registered && !k'.registered then
    match k'.inbox.error with
    | some e => some (.lost e)
    | none => some .displaced
  else none

end Cursor

namespace Connection

open Cursor (Event Step Steps Bystander)

/-- The event that an action of its owner is for a cursor. Waiting for the first answer is one only
if it hands an error out. -/
def ownEvent? (c : Connection) (k : Cursor) : Action → Option Event
  | .next id => some (.ofRead k.inbox.step.1 (c.next? id).1)
  | .prime id =>
    match (c.prime? id).1 with
    | some (.error e) => some (.failed e)
    | _ => none
  | .closeCursor _ => some .closed
  | .dropCursor _ => some .dropped
  | _ => none

/-- The event that an action is for the cursor at a place, which it changes from `k` to `k'`. -/
def event? (c : Connection) (a : Action) (i : CursorId) (k k' : Cursor) : Option Event :=
  if a.cursor? = some i then c.ownEvent? k a
  else
    match a.frame? with
    | some f => if k.registered ∧ k.token = f.token then some (.ofFrame f) else none
    | none => k.loss? k'

/-- What an action is for the cursor at a place: at most one event. -/
def eventsAt (c : Connection) (a : Action) (i : CursorId) : List Event :=
  match c.cursors[i]?, (c.after a).cursors[i]? with
  | some k, some k' => (c.event? a i k k').toList
  | none, some _ => [.asked a.isNoreply]
  | _, none => []

/-- What happens in a run to the cursor at a place. -/
def history (c : Connection) (i : CursorId) : List Action → List Event
  | [] => []
  | a :: as => c.eventsAt a i ++ (c.after a).history i as

/-- An action of others takes the registration of the cursor at a place. -/
def Loses (c : Connection) (i : CursorId) (a : Action) (v : Event) : Prop :=
  a.cursor? ≠ some i ∧ a.frame? = none ∧ ∃ k k', c.cursors[i]? = some k ∧
    (c.after a).cursors[i]? = some k' ∧ k.loss? k' = some v

/-- Where the events of the cursor at a place come from. -/
inductive Arises (c : Connection) (i : CursorId) : Action → Event → Prop where
  | next (k : Cursor) (v : Event) (hk : c.cursors[i]? = some k)
    (hv : v = .ofRead k.inbox.step.1 (c.next? i).1) (hread : v.isRead = true) :
    Arises c i (.next i) v
  | prime (e : ClientError) (h : (c.prime? i).1 = some (.error e)) :
    Arises c i (.prime i) (.failed e)
  | closeCursor : Arises c i (.closeCursor i) .closed
  | dropCursor : Arises c i (.dropCursor i) .dropped
  | frame (f : Frame) (k : Cursor) (v : Event) (hk : c.cursors[i]? = some k)
    (hr : k.registered = true) (ht : k.token = f.token) (hv : v = .ofFrame f)
    (harr : v.isArrival = true) : Arises c i (.report (.frame f)) v
  | lost (a : Action) (e : ClientError) (h : c.Loses i a (.lost e)) : Arises c i a (.lost e)
  | displaced (a : Action) (h : c.Loses i a .displaced) : Arises c i a .displaced
  | asked (a : Action) (hi : c.cursors[i]? = none) : Arises c i a (.asked a.isNoreply)

theorem eq_report_of_frame? {a : Action} {f : Frame} (hf : a.frame? = some f) :
    a = .report (.frame f) := by
  cases a with
  | report event =>
    cases event with
    | frame g => cases hf; rfl
    | _ => cases hf
  | _ => cases hf

theorem arises_of_mem {c : Connection} {a : Action} {i : CursorId} {v : Event}
    (hv : v ∈ c.eventsAt a i) : Arises c i a v := by
  unfold eventsAt at hv
  split at hv
  next k k' hk hk' =>
    rw [Option.mem_toList, event?] at hv
    by_cases ha : a.cursor? = some i
    · rw [if_pos ha] at hv
      cases a with
      | next id =>
        obtain rfl := Option.some.inj ha
        obtain rfl := Option.some.inj hv
        exact .next k _ hk rfl (Event.isRead_ofRead _ _)
      | prime id =>
        obtain rfl := Option.some.inj ha
        simp only [ownEvent?] at hv
        split at hv
        next e he =>
          obtain rfl := Option.some.inj hv
          exact .prime e he
        · cases hv
      | closeCursor id =>
        obtain rfl := Option.some.inj ha
        obtain rfl := Option.some.inj hv
        exact .closeCursor
      | dropCursor id =>
        obtain rfl := Option.some.inj ha
        obtain rfl := Option.some.inj hv
        exact .dropCursor
      | _ => cases ha
    · rw [if_neg ha] at hv
      split at hv
      next f hf =>
        split at hv
        next hr =>
          obtain rfl := eq_report_of_frame? hf
          obtain rfl := Option.some.inj hv
          exact .frame f k _ hk hr.1 hr.2 rfl (Event.isArrival_ofFrame f)
        · cases hv
      next hf =>
        have hloses : c.Loses i a v := ⟨ha, hf, k, k', hk, hk', hv⟩
        unfold Cursor.loss? at hv
        split at hv
        · split at hv
          · obtain rfl := Option.some.inj hv
            exact .lost a _ hloses
          · obtain rfl := Option.some.inj hv
            exact .displaced a hloses
        · cases hv
  next hk hk' =>
    obtain rfl := List.mem_singleton.mp hv
    exact .asked a hk
  · cases hv

theorem history_append (c : Connection) (i : CursorId) (as bs : List Action) :
    c.history i (as ++ bs) = c.history i as ++ (c.run as).history i bs := by
  induction as generalizing c with
  | nil => rfl
  | cons a as ih => simp only [List.cons_append, history, run_cons, ih, List.append_assoc]

variable {c : Connection} {i id : CursorId} {k : Cursor}

theorem getElem?_modifyInbox (hk : c.cursors[id]? = some k) (f : Inbox → Inbox) :
    (c.modifyInbox id f).cursors[id]? = some { k with inbox := f k.inbox } := by
  simp only [modifyInbox, List.getElem?_modify_eq, hk, Option.map_eq_map, Option.map_some]

theorem getElem?_deregister (hk : c.cursors[id]? = some k) :
    (c.deregister k.token).cursors[id]? = some { k with registered := false } := by
  simp only [deregister, List.getElem?_map, hk, Option.map_some, Cursor.deregister, if_true]

/-- Nothing but its owner concerns a cursor that is not registered. -/
theorem Spares.getElem?_eq {E : Token → Prop} {c' : Connection}
    (h : Spares E (fun _ => False) c c') (hk : c.cursors[i]? = some k)
    (hr : k.registered = false) : c'.cursors[i]? = some k := by
  obtain ⟨k', hk', -, -, hb⟩ := h.cursors i k hk
  rw [hk', (hb id).eq_of_not_registered hr]

theorem getElem?_finish (hk : c.cursors[id]? = some k) :
    (c.finish id).cursors[id]? = some { k with registered := false } := by
  simp only [finish, hk]
  have h := getElem?_deregister hk
  split
  · exact (release_spares (E := fun _ => True) _).getElem?_eq h rfl
  · exact h

theorem write_none {q : Query} (h : (c.write q).1 = none) :
    (c.write q).2.cursors = c.cursors := by
  obtain ⟨w, -, ⟨-, hw⟩ | ⟨e, -, hw⟩ | ⟨reason, hw⟩⟩ := c.write_cases q <;> rw [hw] at h ⊢
  all_goals cases h

/-- A request that fails leaves the cursors as they are, or all of them are lost for its error. -/
theorem write_some {q : Query} {e : ClientError} (h : (c.write q).1 = some e) :
    (c.write q).2.cursors = c.cursors ∨ (c.write q).2.cursors = c.cursors.map (·.lose e) := by
  obtain ⟨w, -, ⟨-, hw⟩ | ⟨e, -, hw⟩ | ⟨reason, hw⟩⟩ := c.write_cases q <;> rw [hw] at h ⊢
  · cases h
  · exact Or.inl rfl
  · cases h
    unfold shutDown
    split
    · exact Or.inl rfl
    · exact Or.inr rfl

theorem continueQuery_none {t : Token} (h : (c.continueQuery t).1 = none) :
    (c.continueQuery t).2.cursors = c.cursors := by
  unfold continueQuery at h ⊢
  split at h
  · cases h
  next ho =>
    rw [if_neg ho]
    split at h
    next hr =>
      rw [if_pos hr]
      exact write_none h
    · cases h

theorem continueQuery_some {t : Token} {e : ClientError} (h : (c.continueQuery t).1 = some e) :
    (c.continueQuery t).2.cursors = c.cursors ∨
      (c.continueQuery t).2.cursors = c.cursors.map (·.lose e) := by
  unfold continueQuery at h ⊢
  split at h
  next ho =>
    rw [if_pos ho]
    exact Or.inl rfl
  next ho =>
    rw [if_neg ho]
    split at h
    next hr =>
      rw [if_pos hr]
      exact write_some h
    next hr =>
      rw [if_neg hr]
      exact Or.inl rfl

/-- The cursor of an owner who could not ask for more. -/
theorem getElem?_refused {c' : Connection} {e : ClientError} {s : Inbox}
    (hk : c.cursors[id]? = some { k with inbox := s })
    (h : c'.cursors = c.cursors ∨ c'.cursors = c.cursors.map (·.lose e)) :
    ∃ s', (s' = s ∨ s' = s.fail e) ∧ ((c'.modifyInbox id Inbox.abandon).finish id).cursors[id]? =
      some { k with registered := false, inbox := s'.abandon } := by
  have hlost : ∃ s', (s' = s ∨ s' = s.fail e) ∧ ∃ b,
      c'.cursors[id]? = some { k with registered := b, inbox := s' } := by
    rcases h with h | h
    · exact ⟨s, Or.inl rfl, k.registered, by rw [h, hk]⟩
    · rw [h, List.getElem?_map, hk, Option.map_some]
      by_cases hr : k.registered = true
      · exact ⟨s.fail e, Or.inr rfl, false, by simp only [Cursor.lose, hr, if_true]⟩
      · exact ⟨s, Or.inl rfl, k.registered, by simp only [Cursor.lose, hr]; rfl⟩
  obtain ⟨s', hs', b, hb⟩ := hlost
  exact ⟨s', hs', getElem?_finish (getElem?_modifyInbox hb Inbox.abandon)⟩

/-- A call of `next` is one event for its cursor. -/
theorem step_next (hk : c.cursors[id]? = some k) :
    ∃ k', (c.next? id).2.cursors[id]? = some k' ∧
      Step k (.ofRead k.inbox.step.1 (c.next? id).1) k' := by
  have hset (s : Inbox) := getElem?_modifyInbox hk fun _ => s
  simp only [next?, hk]
  cases hstep : k.inbox.step with
  | mk offer s =>
    cases offer with
    | value v => exact ⟨_, hset s, .yielded v s hstep⟩
    | ended => exact ⟨_, getElem?_finish (hset s), .ended s hstep⟩
    | failed e => exact ⟨_, getElem?_finish (hset s), .failed e s hstep⟩
    | wait => exact ⟨k, hk, .waited s hstep⟩
    | fetch =>
      dsimp only
      cases hq : (c.modifyInbox id fun _ => s).continueQuery k.token with
      | mk r c' =>
        cases r with
        | none =>
          have h := continueQuery_none (c := c.modifyInbox id fun _ => s) (t := k.token)
            (by rw [hq])
          rw [hq] at h
          exact ⟨_, by rw [h]; exact hset s, .fetched s hstep⟩
        | some e =>
          have h := continueQuery_some (c := c.modifyInbox id fun _ => s) (t := k.token)
            (e := e) (by rw [hq])
          rw [hq] at h
          obtain ⟨s', hs', hend⟩ := getElem?_refused (hset s) h
          exact ⟨_, hend, .refused e s s' hstep hs'⟩

theorem prime_eq_failed {s s' : Inbox} {e : ClientError} (h : s.prime = (.failed e, s')) :
    s.step = (.failed e, s') := by
  unfold Inbox.prime at h
  split at h
  · cases h
  next hb =>
    simp only [Bool.or_eq_true, Bool.not_eq_true', not_or, Bool.not_eq_false,
      List.isEmpty_iff] at hb
    split at h
    next he =>
      simp only [Prod.mk.injEq, Inbox.Primed.failed.injEq] at h
      exact Inbox.step_eq_failed.mpr ⟨hb.1, by rw [he, h.1], h.2.symm⟩
    · split at h <;> cases h

/-- Waiting for the first answer is an event only if it hands an error out. -/
theorem steps_prime (hk : c.cursors[id]? = some k) :
    ∃ k', (c.prime? id).2.cursors[id]? = some k' ∧
      Steps k (c.ownEvent? k (.prime id)).toList k' := by
  simp only [ownEvent?, prime?, hk]
  cases hp : k.inbox.prime with
  | mk r s =>
    cases r with
    | ready => exact ⟨k, hk, rfl⟩
    | wait => exact ⟨k, hk, rfl⟩
    | failed e =>
      exact ⟨_, getElem?_finish (getElem?_modifyInbox hk fun _ => s),
        _, .failed e s (prime_eq_failed hp), rfl⟩

theorem getElem?_collect : c.collect.cursors = c.cursors := by
  unfold collect
  split <;> rfl

theorem step_closeCursor (hk : c.cursors[id]? = some k) (hs : k.Sound) :
    ∃ k', (c.closeCursor id).2.cursors[id]? = some k' ∧ Step k .closed k' := by
  simp only [closeCursor, hk]
  by_cases hc : k.inbox.closed = true
  · rw [if_pos hc]
    have hr := hs.not_registered (by simp [Inbox.isRunning, hc])
    refine ⟨k, ?_, .closedAgain hc⟩
    split
    · exact (release_spares (E := fun _ => True) _).getElem?_eq hk hr
    · exact hk
  · rw [if_neg hc]
    have h := getElem?_deregister (getElem?_modifyInbox hk Inbox.close)
    refine ⟨_, ?_, .closed (by simpa using hc)⟩
    split
    · exact (close_spares (E := fun _ => True) _).getElem?_eq h rfl
    · split
      · exact h
      · exact (stop_spares (E := fun _ => True) _ _).getElem?_eq h rfl

theorem getElem?_letGo (hk : c.cursors[id]? = some k) :
    (c.letGo id).cursors[id]? = some { k with held := false } := by
  rw [letGo, getElem?_collect, List.getElem?_modify_eq, hk]
  rfl

theorem step_dropCursor (hk : c.cursors[id]? = some k) (hs : k.Sound) :
    ∃ k', (c.dropCursor id).cursors[id]? = some k' ∧ Step k .dropped k' := by
  have h := getElem?_modifyInbox hk Inbox.drop
  have hd := getElem?_deregister h
  have hidle (hrun : k.inbox.isRunning = false) :
      ({ k with inbox := k.inbox.drop } : Cursor) =
        { k with registered := false, inbox := k.inbox.drop } := by
    rw [← hs.not_registered hrun]
  refine ⟨_, ?_, .dropped⟩
  rw [dropCursor_eq hk]
  split
  · exact getElem?_letGo ((release_spares (E := fun _ => True) _).getElem?_eq hd rfl)
  · exact getElem?_letGo ((stop_spares (E := fun _ => True) _ _).getElem?_eq hd rfl)
  next hrun _ =>
    rw [hidle hrun] at h
    exact getElem?_letGo ((release_spares (E := fun _ => True) _).getElem?_eq h rfl)
  next hrun _ =>
    rw [hidle hrun] at h
    exact getElem?_letGo h

theorem steps_receive (f : Frame) :
    Steps k (if k.registered ∧ k.token = f.token then some (Event.ofFrame f) else none).toList
      (k.receive f) := by
  unfold Cursor.receive
  by_cases h : k.registered = true ∧ k.token = f.token
  · rw [if_pos h, if_pos h]
    unfold Event.ofFrame
    cases Response.decode f.token f.payload with
    | ok r => exact ⟨_, .answered r h.1, rfl⟩
    | error e => exact ⟨_, .garbled e h.1, rfl⟩
  · rw [if_neg h, if_neg h]
    rfl

theorem loss?_displaced (hk : k.registered = true) (hs : k.Sound) :
    k.loss? { k with registered := false } = some .displaced := by
  simp [Cursor.loss?, hk, (hs hk).2]

theorem loss?_lost (e : ClientError) (hk : k.registered = true) (hs : k.Sound) :
    k.loss? (k.lose e) = some (.lost e) := by
  obtain ⟨hc, hd⟩ := Inbox.isRunning_iff.mp (hs hk).1
  simp [Cursor.loss?, Cursor.lose, hk, Inbox.fail, hc, hd]

theorem steps_loss {ending closed : Prop} {k' : Cursor} (h : Bystander ending closed k k')
    (hs : k.Sound) : Steps k (k.loss? k').toList k' := by
  cases h with
  | same =>
    have hnone : k.loss? k = none := by simp [Cursor.loss?]
    rw [hnone]
    rfl
  | displaced _ hk =>
    rw [loss?_displaced hk hs]
    exact ⟨_, .displaced hk, rfl⟩
  | lost e _ hk =>
    rw [loss?_lost e hk hs]
    refine ⟨_, .lost e hk, ?_⟩
    rw [Cursor.lose, if_pos hk]
    rfl

/-- A cursor loses its registration with the connection, or to another one with its token. -/
theorem cases_of_loss {ending closed : Prop} {k' : Cursor} {v : Event}
    (h : Bystander ending closed k k') (hs : k.Sound) (hv : k.loss? k' = some v) :
    (v = .displaced ∧ ending) ∨ (∃ e, v = .lost e) ∧ closed := by
  cases h with
  | same => simp [Cursor.loss?] at hv
  | displaced hend hk =>
    rw [loss?_displaced hk hs] at hv
    exact Or.inl ⟨(Option.some.inj hv).symm, hend⟩
  | lost e hc hk =>
    rw [loss?_lost e hk hs] at hv
    exact Or.inr ⟨⟨e, (Option.some.inj hv).symm⟩, hc⟩

/-- What becomes of a cursor when its owner does nothing and no frame arrives. -/
theorem bystander_after {a : Action} (hk : c.cursors[i]? = some k) (ha : a.cursor? ≠ some i)
    (hf : a.frame? = none) : ∃ k', (c.after a).cursors[i]? = some k' ∧
      Bystander (a.Ends c k.token) ((c.after a).closed = true) k k' := by
  have hown : ¬a.Owns c i := by
    rintro (h | ⟨f, _, h, _⟩)
    · exact ha h
    · rw [hf] at h
      cases h
  rcases c.after_cases a with h | ⟨l, c₁, h⟩
  · obtain ⟨k', hk', -, -, hb⟩ := h.cursors i k hk
    exact ⟨k', hk', hb hown⟩
  · obtain ⟨k', hk', -, -, hb⟩ := h.spares.cursors i k hk
    have hlt := (List.getElem?_eq_some_iff.mp hk').choose
    rw [h.after, addCursor, List.getElem?_append_left hlt]
    exact ⟨k', hk', hb hown⟩

/-- An action changes each cursor by the events that it is for the cursor. -/
theorem steps_after (a : Action) (hk : c.cursors[i]? = some k) (hs : k.Sound) :
    ∃ k', (c.after a).cursors[i]? = some k' ∧ Steps k (c.eventsAt a i) k' := by
  suffices ∃ k', (c.after a).cursors[i]? = some k' ∧ Steps k (c.event? a i k k').toList k' by
    obtain ⟨k', hk', h⟩ := this
    exact ⟨k', hk', by simpa only [eventsAt, hk, hk'] using h⟩
  by_cases ha : a.cursor? = some i
  · simp only [event?, if_pos ha]
    cases a with
    | next id =>
      obtain rfl := Option.some.inj ha
      obtain ⟨k', hk', h⟩ := step_next hk
      exact ⟨k', hk', k', h, rfl⟩
    | prime id =>
      obtain rfl := Option.some.inj ha
      exact steps_prime hk
    | closeCursor id =>
      obtain rfl := Option.some.inj ha
      obtain ⟨k', hk', h⟩ := step_closeCursor hk hs
      exact ⟨k', hk', k', h, rfl⟩
    | dropCursor id =>
      obtain rfl := Option.some.inj ha
      obtain ⟨k', hk', h⟩ := step_dropCursor hk hs
      exact ⟨k', hk', k', h, rfl⟩
    | _ => cases ha
  · simp only [event?, if_neg ha]
    cases hf : a.frame? with
    | some f =>
      obtain rfl := eq_report_of_frame? hf
      exact ⟨k.receive f, getElem?_route f hk, steps_receive f⟩
    | none =>
      obtain ⟨k', hk', hb⟩ := bystander_after hk ha hf
      exact ⟨k', hk', steps_loss hb hs⟩

theorem Loses.cases {a : Action} {v : Event} (h : c.Loses i a v)
    (hs : ∀ k, c.cursors[i]? = some k → k.Sound) :
    (v = .displaced ∧ ∃ k, c.cursors[i]? = some k ∧ a.Ends c k.token) ∨
      (∃ e, v = .lost e) ∧ (c.after a).closed = true := by
  obtain ⟨ha, hf, k, k', hk, hk', hv⟩ := h
  obtain ⟨l, hl, hb⟩ := bystander_after hk ha hf
  obtain rfl := Option.some.inj (hk'.symm.trans hl)
  exact (cases_of_loss hb (hs k hk) hv).imp_left fun h => ⟨h.1, k, hk, h.2⟩

/-- A run changes each cursor by what happens to it. -/
theorem steps_run (as : List Action) (hk : c.cursors[i]? = some k) (hs : k.Sound) :
    ∃ k', (c.run as).cursors[i]? = some k' ∧ Steps k (c.history i as) k' := by
  induction as generalizing c k with
  | nil => exact ⟨k, hk, rfl⟩
  | cons a as ih =>
    obtain ⟨m, hm, ha⟩ := steps_after a hk hs
    obtain ⟨k', hk', h⟩ := ih hm (ha.sound hs)
    exact ⟨k', hk', Cursor.steps_append.mpr ⟨m, ha, h⟩⟩

variable {a : Action}

theorem Asked.length {E : Token → Prop} {O : CursorId → Prop} {c₁ : Connection}
    (h : Asked E O c a k c₁) : (c.after a).cursors.length = c.cursors.length + 1 := by
  rw [h.after, addCursor, List.length_append, h.spares.length]
  rfl

theorem Asked.getElem?_length {E : Token → Prop} {O : CursorId → Prop} {c₁ : Connection}
    (h : Asked E O c a k c₁) : (c.after a).cursors[c.cursors.length]? = some k := by
  rw [h.after, addCursor, ← h.spares.length, List.getElem?_concat_length]

theorem Asked.getElem?_of_lt {E : Token → Prop} {O : CursorId → Prop} {c₁ : Connection}
    (h : Asked E O c a k c₁) (hi : i < c.cursors.length) :
    (c.after a).cursors[i]? = c₁.cursors[i]? := by
  rw [h.after, addCursor, List.getElem?_append_left (by rw [h.spares.length]; exact hi)]

/-- A cursor after an action was there before it, or has just been asked for. -/
theorem before_or_asked (hk : (c.after a).cursors[i]? = some k) :
    (∃ l, c.cursors[i]? = some l ∧ k.token = l.token ∧
      (k.registered = true → l.registered = true)) ∨
    i = c.cursors.length ∧ ∃ c₁, Asked (a.Ends c) (a.Owns c) c a k c₁ := by
  rcases c.after_cases a with h | ⟨l, c₁, h⟩
  · exact Or.inl (h.before hk)
  · obtain ⟨hlt, -⟩ := List.getElem?_eq_some_iff.mp hk
    rw [h.length] at hlt
    by_cases hi : i < c.cursors.length
    · rw [h.getElem?_of_lt hi] at hk
      exact Or.inl (h.spares.before hk)
    · have hlast := Nat.le_antisymm (Nat.lt_succ_iff.mp hlt) (Nat.not_lt.mp hi)
      rw [hlast, h.getElem?_length] at hk
      obtain rfl := Option.some.inj hk
      exact Or.inr ⟨hlast, c₁, h⟩

/-- The history of a cursor that is not there yet is empty, or it begins when that is asked for. -/
theorem history_of_none (as : List Action) (hi : c.cursors[i]? = none) :
    (c.history i as = [] ∧ (c.run as).cursors[i]? = none) ∨
      ∃ as₁ a as₂ k c₁, as = as₁ ++ a :: as₂ ∧ i = (c.run as₁).cursors.length ∧
        Asked (a.Ends (c.run as₁)) (a.Owns (c.run as₁)) (c.run as₁) a k c₁ ∧
        c.history i as = .asked a.isNoreply :: ((c.run as₁).after a).history i as₂ := by
  induction as generalizing c with
  | nil => exact Or.inl ⟨rfl, hi⟩
  | cons a as ih =>
    cases hk : (c.after a).cursors[i]? with
    | none =>
      have hnil : c.eventsAt a i = [] := by simp only [eventsAt, hi, hk]
      rcases ih hk with ⟨hh, hend⟩ | ⟨as₁, b, as₂, k, c₁, rfl, hlen, hb, hh⟩
      · exact Or.inl ⟨by rw [history, hnil, hh, List.append_nil], hend⟩
      · exact Or.inr ⟨a :: as₁, b, as₂, k, c₁, rfl, hlen, hb, by
          rw [history, hnil, List.nil_append, hh]; rfl⟩
    | some k =>
      have hasked : c.eventsAt a i = [.asked a.isNoreply] := by simp only [eventsAt, hi, hk]
      rcases before_or_asked hk with ⟨l, hl, -⟩ | ⟨hlen, c₁, h⟩
      · rw [hi] at hl
        cases hl
      · exact Or.inr ⟨[], a, as, k, c₁, rfl, hlen, h, by rw [history, hasked]; rfl⟩

theorem start_none (s : Settings) (i : CursorId) : (start s).cursors[i]? = none := by
  simp [start]

/-- A cursor was asked for, and then its history made it what it is. -/
theorem steps_of_none {as : List Action} (hi : c.cursors[i]? = none)
    (hk : (c.run as).cursors[i]? = some k) : ∃ t noreply h k₀, k₀.New t noreply ∧
      c.history i as = .asked noreply :: h ∧ Steps k₀ h k := by
  rcases history_of_none as hi with ⟨-, hend⟩ | ⟨as₁, a, as₂, k₀, c₁, rfl, hlen, ha, hh⟩
  · rw [hend] at hk
    cases hk
  · have hk₀ : ((c.run as₁).after a).cursors[i]? = some k₀ := hlen ▸ ha.getElem?_length
    obtain ⟨k', hk', hs⟩ := steps_run as₂ hk₀ ha.new.sound
    rw [run_append, run_cons] at hk
    obtain rfl := Option.some.inj (hk.symm.trans hk')
    exact ⟨_, _, _, k₀, ha.new, hh, hs⟩

end Connection
end Reql
