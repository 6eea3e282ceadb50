import Reql.Proofs.Connection.Draining
import Reql.Proofs.Connection.Wire

/-! Calls on a cursor to which nothing more is delivered: they depend on the cursor alone. -/
namespace Reql

/-- Nothing more is delivered to the cursor, and its server has nothing left to do. -/
def Cursor.Idle (k : Cursor) : Prop :=
  k.registered = false ∧ k.inbox.isRunning = false

namespace Connection

/-- What an action gives, and what becomes of the cursor, is the same on all connections that have
the cursor at the place; the cursor stays idle, and nothing is written. -/
def Local (id : CursorId) {α : Type} (k : Cursor) (f : Connection → α × Connection) : Prop :=
  ∃ r k', k'.Idle ∧ ∀ c, c.cursors[id]? = some k →
    (f c).1 = r ∧ (f c).2.cursors[id]? = some k' ∧ (f c).2.written = c.written

variable {id : CursorId} {α β : Type} {k : Cursor} {f g : Connection → α × Connection}

namespace Local

theorem pure (hk : k.Idle) (r : α) : Local id k fun c => (r, c) :=
  ⟨r, k, hk, fun _ h => ⟨rfl, h, rfl⟩⟩

theorem congr (hf : Local id k f) (h : ∀ c, c.cursors[id]? = some k → g c = f c) :
    Local id k g := by
  obtain ⟨r, k', hk', hall⟩ := hf
  refine ⟨r, k', hk', fun c hc => ?_⟩
  rw [h c hc]
  exact hall c hc

/-- One action after another that gives `r` and leaves the cursor as `k'`. -/
theorem behind {g h : Connection → β × Connection} {r : α} {k' : Cursor} (hg : Local id k' g)
    (hf : ∀ c, c.cursors[id]? = some k →
      (f c).1 = r ∧ (f c).2.cursors[id]? = some k' ∧ (f c).2.written = c.written)
    (heq : ∀ c, (f c).1 = r → h c = g (f c).2) : Local id k h := by
  obtain ⟨r', k'', hk'', hall⟩ := hg
  refine ⟨r', k'', hk'', fun c hc => ?_⟩
  obtain ⟨hr, hcursor, hwritten⟩ := hf c hc
  obtain ⟨hr', hcursor', hwritten'⟩ := hall _ hcursor
  rw [heq c hr]
  exact ⟨hr', hcursor', hwritten'.trans hwritten⟩

end Local

theorem getElem?_release (c : Connection) (hk : c.cursors[id]? = some k)
    (hr : k.registered = false) : c.release.cursors[id]? = some k :=
  (release_spares (E := fun _ => True) c).getElem?_eq hk hr

theorem next?_local (id : CursorId) (hk : k.Idle) : Local id k fun c => c.next? id := by
  obtain ⟨hr, hrun⟩ := hk
  have hover : k.inbox.serverDone = true ∨ k.inbox.closed = true := by
    cases hd : k.inbox.serverDone <;> cases hc : k.inbox.closed <;>
      simp [Inbox.isRunning, hd, hc] at hrun ⊢
  have hend (s : Inbox) (hs : s.isRunning = false) (result : Except ClientError (Option Json)) :
      Local id k fun c => (some result, (c.modifyInbox id fun _ => s).finish id) := by
    refine ⟨_, { k with registered := false, inbox := s }, ⟨rfl, hs⟩, fun c hc => ⟨rfl, ?_, ?_⟩⟩
    · exact getElem?_finish (getElem?_modifyInbox hc fun _ => s)
    · exact (finish_quiet (c.modifyInbox id fun _ => s) id).written
  obtain ⟨offer, s, hstep⟩ : ∃ offer s, k.inbox.step = (offer, s) := ⟨_, _, rfl⟩
  cases offer with
  | value v =>
    obtain ⟨rest, -, rfl⟩ := Inbox.step_eq_value.mp hstep
    refine ⟨some (.ok (some v)), { k with inbox := { k.inbox with buffer := rest } }, ⟨hr, hrun⟩,
      fun c hc => ?_⟩
    dsimp only
    rw [next?_of_step hc hstep]
    exact ⟨rfl, getElem?_modifyInbox hc _, rfl⟩
  | ended =>
    obtain ⟨-, -, -, rfl⟩ := Inbox.step_eq_ended.mp hstep
    exact (hend _ rfl (.ok none)).congr fun c hc => next?_of_step hc hstep
  | failed e =>
    obtain ⟨-, -, rfl⟩ := Inbox.step_eq_failed.mp hstep
    exact (hend _ rfl (.error e)).congr fun c hc => next?_of_step hc hstep
  | fetch =>
    obtain ⟨-, -, hd, hc, -⟩ := Inbox.step_eq_fetch.mp hstep
    simp [hd, hc] at hover
  | wait =>
    obtain ⟨-, -, hd, hc, -⟩ := Inbox.step_eq_wait.mp hstep
    simp [hd, hc] at hover

theorem prime?_local (id : CursorId) (hk : k.Idle) : Local id k fun c => c.prime? id := by
  cases hprime : k.inbox.prime with
  | mk r s =>
    cases r with
    | ready =>
      exact (Local.pure hk (some (.ok ()))).congr fun c hc => by
        simp only [prime?, hc, hprime]
    | wait =>
      exact (Local.pure hk none).congr fun c hc => by simp only [prime?, hc, hprime]
    | failed e =>
      have hs : s.isRunning = false := by
        obtain ⟨-, -, rfl⟩ := Inbox.step_eq_failed.mp (prime_eq_failed hprime)
        rfl
      refine ⟨some (.error e), { k with registered := false, inbox := s }, ⟨rfl, hs⟩,
        fun c hc => ?_⟩
      have heq : c.prime? id =
          (some (.error e), (c.modifyInbox id fun _ => s).finish id) := by
        simp only [prime?, hc, hprime]
      dsimp only
      rw [heq]
      exact ⟨rfl, getElem?_finish (getElem?_modifyInbox hc fun _ => s),
        (finish_quiet (c.modifyInbox id fun _ => s) id).written⟩

theorem closeCursor_local (id : CursorId) (hk : k.Idle) : Local id k fun c => c.closeCursor id := by
  obtain ⟨hr, hrun⟩ := hk
  have hwritten (c : Connection) (hc : c.cursors[id]? = some k) :
      (c.closeCursor id).2.written = c.written := by
    have h := releases_written (a := .closeCursor id) hc (.inl rfl)
    rwa [if_neg (by simp [hrun])] at h
  by_cases hclosed : k.inbox.closed = true
  · refine ⟨none, k, ⟨hr, hrun⟩, fun c hc => ?_⟩
    have heq : c.closeCursor id = (none, if k.exclusive then c.release else c) := by
      simp only [closeCursor, hc, hclosed, if_true]
    dsimp only
    refine ⟨by rw [heq], ?_, hwritten c hc⟩
    rw [heq]
    dsimp only
    split
    · exact c.getElem?_release hc hr
    · exact hc
  · have hd : k.inbox.serverDone = true := by
      cases hd : k.inbox.serverDone with
      | true => rfl
      | false => simp [Inbox.isRunning, hd, hclosed] at hrun
    refine ⟨none, { k with registered := false, inbox := k.inbox.close }, ⟨rfl, rfl⟩,
      fun c hc => ?_⟩
    obtain ⟨l, hl, hstep⟩ := step_closeCursor hc fun h => by rw [hr] at h; cases h
    have hl' : l = { k with registered := false, inbox := k.inbox.close } := by
      cases hstep with
      | closed => rfl
      | closedAgain h => exact absurd h hclosed
    refine ⟨?_, hl' ▸ hl, hwritten c hc⟩
    simp only [closeCursor, hc, hd, if_neg hclosed, if_true]
    split <;> rfl

theorem dropCursor_local (hk : k.Idle) (r : α) :
    Local id k fun c => (r, c.dropCursor id) := by
  obtain ⟨hr, hrun⟩ := hk
  have hsound : k.Sound := fun h => by rw [hr] at h; cases h
  refine ⟨r, { k with registered := false, held := false, inbox := k.inbox.drop }, ⟨rfl, rfl⟩,
    fun c hc => ⟨rfl, ?_, ?_⟩⟩
  · obtain ⟨l, hl, hstep⟩ := step_dropCursor hc hsound
    cases hstep
    exact hl
  · have h := releases_written (a := .dropCursor id) hc (.inr rfl)
    rwa [if_neg (by simp [hrun])] at h

/-! ### Calls by what reading the cursor or waiting for its first answer gives -/

theorem collectAll_succ (c : Connection) (id : CursorId) (steps : Nat) (values : List Json) :
    collectAll id (steps + 1) values c = match (c.next? id).1 with
      | none => (.inr (.all values), (c.next? id).2)
      | some (.error e) => (.inl (.failed e), (c.next? id).2)
      | some (.ok none) => (.inl (.values values.reverse), (c.next? id).2)
      | some (.ok (some v)) => collectAll id steps (v :: values) (c.next? id).2 := by
  rw [collectAll]
  rcases c.next? id with ⟨_ | _ | _ | _, c⟩ <;> rfl

theorem exhaust_succ (c : Connection) (id : CursorId) (steps : Nat) :
    exhaust id (steps + 1) c = match (c.next? id).1 with
      | none => (.inr .barrier, (c.next? id).2)
      | some (.error e) => (.inl (.failed e), (c.next? id).2.dropCursor id)
      | some (.ok none) => (.inl .done, (c.next? id).2.dropCursor id)
      | some (.ok (some _)) => exhaust id steps (c.next? id).2 := by
  rw [exhaust]
  rcases c.next? id with ⟨_ | _ | _ | _, c⟩ <;> rfl

theorem advance_next (c : Connection) (id : CursorId) :
    c.advance id .next = match (c.next? id).1 with
      | none => (.inr .next, (c.next? id).2)
      | some (.error e) => (.inl (.failed e), (c.next? id).2)
      | some (.ok none) => (.inl .ended, (c.next? id).2)
      | some (.ok (some v)) => (.inl (.value v), (c.next? id).2) := by
  rw [advance]
  rcases c.next? id with ⟨_ | _ | _ | _, c⟩ <;> rfl

theorem advance_stream (c : Connection) (id : CursorId) :
    c.advance id .stream = match (c.next? id).1 with
      | none => (.inr .stream, (c.next? id).2)
      | some (.error e) => (.inl (.failed e), (c.next? id).2)
      | some (.ok none) => (.inl .ended, (c.next? id).2.dropCursor id)
      | some (.ok (some v)) => (.inl (.value v), (c.next? id).2) := by
  rw [advance]
  rcases c.next? id with ⟨_ | _ | _ | _, c⟩ <;> rfl

theorem advance_one (c : Connection) (id : CursorId) :
    c.advance id .one = match (c.next? id).1 with
      | none => (.inr .one, (c.next? id).2)
      | some (.error e) => (.inl (.failed e), (c.next? id).2)
      | some (.ok first) =>
        (.inl (((c.next? id).2.closeCursor id).1.elim
            (first.elim (.failed .emptyResult) .value) .failed),
          ((c.next? id).2.closeCursor id).2) := by
  rw [advance]
  rcases c.next? id with ⟨_ | _ | first, c⟩
  · rfl
  · rfl
  · dsimp only
    rcases c.closeCursor id with ⟨_ | _, c⟩ <;> cases first <;> rfl

theorem advance_run (c : Connection) (id : CursorId) :
    c.advance id .run = match (c.prime? id).1 with
      | none => (.inr .run, (c.prime? id).2)
      | some (.error e) => (.inl (.failed e), (c.prime? id).2.dropCursor id)
      | some (.ok ()) => (.inl .ready, (c.prime? id).2) := by
  rw [advance]
  rcases c.prime? id with ⟨_ | _ | _, c⟩ <;> rfl

theorem advance_exec (c : Connection) (id : CursorId) :
    c.advance id .exec = match (c.prime? id).1 with
      | none => (.inr .exec, (c.prime? id).2)
      | some (.error e) => (.inl (.failed e), (c.prime? id).2.dropCursor id)
      | some (.ok ()) =>
        (.inl (((c.prime? id).2.closeCursor id).1.elim .done .failed),
          ((c.prime? id).2.closeCursor id).2.dropCursor id) := by
  rw [advance]
  rcases c.prime? id with ⟨_ | _ | _, c⟩
  · rfl
  · rfl
  · dsimp only
    rcases c.closeCursor id with ⟨_ | _, c⟩ <;> rfl

/-! ### Calls on an idle cursor -/

theorem collectAll_local (hk : k.Idle) (steps : Nat) (values : List Json) :
    Local id k fun c => collectAll id steps values c := by
  induction steps generalizing k values with
  | zero => exact .pure hk _
  | succ steps ih =>
    obtain ⟨r, k', hk', hread⟩ := next?_local id hk
    match r with
    | none | some (.error _) | some (.ok none) =>
      exact (Local.pure hk' _).behind hread fun c hr => by rw [collectAll_succ, hr]
    | some (.ok (some v)) =>
      exact (ih hk' (v :: values)).behind hread fun c hr => by rw [collectAll_succ, hr]

theorem exhaust_local (hk : k.Idle) (steps : Nat) :
    Local id k fun c => exhaust id steps c := by
  induction steps generalizing k with
  | zero => exact .pure hk _
  | succ steps ih =>
    obtain ⟨r, k', hk', hread⟩ := next?_local id hk
    match r with
    | none => exact (Local.pure hk' _).behind hread fun c hr => by rw [exhaust_succ, hr]
    | some (.error _) | some (.ok none) =>
      exact (dropCursor_local hk' _).behind hread fun c hr => by rw [exhaust_succ, hr]
    | some (.ok (some _)) => exact (ih hk').behind hread fun c hr => by rw [exhaust_succ, hr]

/-- Going on with a call depends on the cursor alone. -/
theorem advance_local (id : CursorId) (hk : k.Idle) (call : Call) :
    Local id k fun c => c.advance id call := by
  obtain ⟨r, k', hk', hread⟩ := next?_local id hk
  obtain ⟨r', l, hl, hprime⟩ := prime?_local id hk
  cases call with
  | next =>
    rcases r with _ | _ | _ | _ <;>
      exact (Local.pure hk' _).behind hread fun c hr => by rw [advance_next, hr]
  | all values =>
    exact (collectAll_local hk (k.inbox.buffer.length + 1) values).congr fun c hc => by
      rw [advance, buffered_eq hc]
  | one =>
    rcases r with _ | _ | first
    · exact (Local.pure hk' _).behind hread fun c hr => by rw [advance_one, hr]
    · exact (Local.pure hk' _).behind hread fun c hr => by rw [advance_one, hr]
    · obtain ⟨r, k'', hk'', hclose⟩ := closeCursor_local id hk'
      have hend : Local id k' fun c =>
          ((.inl ((c.closeCursor id).1.elim (first.elim (.failed .emptyResult) .value) .failed) :
              Outcome ⊕ Call), (c.closeCursor id).2) :=
        (Local.pure hk'' _).behind hclose fun c hr => by rw [hr]
      exact hend.behind hread fun c hr => by rw [advance_one, hr]
  | stream =>
    rcases r with _ | _ | _ | _
    case some.ok.none =>
      exact (dropCursor_local hk' _).behind hread fun c hr => by rw [advance_stream, hr]
    all_goals exact (Local.pure hk' _).behind hread fun c hr => by rw [advance_stream, hr]
  | run =>
    rcases r' with _ | _ | _
    · exact (Local.pure hl _).behind hprime fun c hr => by rw [advance_run, hr]
    · exact (dropCursor_local hl _).behind hprime fun c hr => by rw [advance_run, hr]
    · exact (Local.pure hl _).behind hprime fun c hr => by rw [advance_run, hr]
  | exec =>
    rcases r' with _ | _ | _
    · exact (Local.pure hl _).behind hprime fun c hr => by rw [advance_exec, hr]
    · exact (dropCursor_local hl _).behind hprime fun c hr => by rw [advance_exec, hr]
    · obtain ⟨r, l', hl', hclose⟩ := closeCursor_local id hl
      have hend : Local id l fun c =>
          ((.inl ((c.closeCursor id).1.elim .done .failed) : Outcome ⊕ Call),
            (c.closeCursor id).2.dropCursor id) :=
        (dropCursor_local hl' _).behind hclose fun c hr => by rw [hr]
      exact hend.behind hprime fun c hr => by rw [advance_exec, hr]
  | barrier =>
    exact (exhaust_local hk (k.inbox.buffer.length + 1)).congr fun c hc => by
      rw [advance, buffered_eq hc]

/-- What the stream reports does not concern an idle cursor. -/
theorem getElem?_handle (c : Connection) (event : FrameEvent) (hk : c.cursors[id]? = some k)
    (hr : k.registered = false) : (c.handle event).cursors[id]? = some k := by
  cases event with
  | frame f =>
    rw [handle, getElem?_route f hk, Cursor.receive, if_neg]
    rintro ⟨h, -⟩
    rw [hr] at h
    cases h
  | failed e => exact (shutDown_spares (E := fun _ => True) c _).getElem?_eq hk hr
  | ended => exact (shutDown_spares (E := fun _ => True) c _).getElem?_eq hk hr

end Connection
end Reql
