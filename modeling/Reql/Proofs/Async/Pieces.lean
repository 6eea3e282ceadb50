import Reql.Proofs.Async.Calling

/-! Runs in which one call after another is carried out in one piece. -/
namespace Reql.Async

namespace State

/-- What happens next if nothing interrupts: what has been reported is handled, and otherwise the
first computation goes on that has not come to its end. -/
def due (s : State) (pick : Nat) : Action :=
  if s.handler.isEmpty then .step (s.tasks.findIdx fun τ => !τ.isOver) pick else .handle pick

/-- A run in which nothing interrupts. -/
def undisturbed (s : State) : List Nat → List Action
  | [] => []
  | pick :: picks => s.due pick :: (s.after (s.due pick)).undisturbed picks

/-- A call in one piece. Who gives something up lets the stream go at the end. -/
def piece (s : State) (call : Connection.Action) (picks : List Nat) : List Action :=
  .begin call true :: ((s.begin true call).undisturbed picks ++
    if letsGo call then [.collect] else [])

/-- Nothing is left to do. -/
structure Resting (s : State) : Prop where
  idle : s.Idle
  holder : s.holder = none
  handler : s.handler = []
  settled : s.store.Settled

variable {s : State} {call : Connection.Action} {j : TaskId} {pick : Nat} {picks : List Nat}

theorem resting_start (settings : Settings) : (start settings).Resting :=
  ⟨by simp [Idle, start], rfl, rfl, .inl rfl⟩

theorem run_undisturbed_append (s : State) (ps qs : List Nat) :
    s.run (s.undisturbed (ps ++ qs)) =
      (s.run (s.undisturbed ps)).run ((s.run (s.undisturbed ps)).undisturbed qs) := by
  induction ps generalizing s with
  | nil => rfl
  | cons pick ps ih => exact ih (s.after (s.due pick))

theorem step_of_idle (h : s.Idle) (j : TaskId) (pick : Nat) : s.step j pick = s := by
  rcases s.step_cases j pick with hs | ⟨τ, p, rest, hnext, -⟩
  · exact hs
  · obtain ⟨hτ, htodo⟩ := mem_of_next? hnext
    rw [h τ hτ] at htodo
    cases htodo

/-- Where nothing is left to do, nothing happens. -/
theorem run_of_idle (h : s.Idle) (hhandler : s.handler = []) (picks : List Nat) :
    s.run (s.undisturbed picks) = s := by
  have hdue (pick : Nat) : s.after (s.due pick) = s := by
    rw [due, if_pos (by rw [hhandler]; rfl)]
    exact step_of_idle h _ pick
  induction picks with
  | nil => rfl
  | cons pick picks ih =>
    rw [undisturbed, run_cons, hdue]
    exact ih

end State

namespace Thread

variable {x y : Thread} {P : Thread → Prop} {s : State} {cursor : Option CursorId} {p : Point}
  {rest : List Point} {n : Nat}

/-- A state in which all computations have come to their end but this one, the last, and those that
it has started. -/
def within (x : Thread) (s : State) (cursor : Option CursorId) : State where
  store := x.store
  holder := if x.todo.head?.any Point.hasWriter then some s.tasks.length else none
  tasks := s.tasks ++ ⟨cursor, true, x.todo, x.reply⟩ :: x.started
  handler := []

def handling (x : Thread) (s : State) : State :=
  { s with store := x.store, handler := x.todo }

theorem due_within (hs : s.Idle) (hx : x.todo = p :: rest) (pick : Nat) :
    (x.within s cursor).due pick = .step s.tasks.length pick := by
  have hnone : s.tasks.findIdx (fun τ => !τ.isOver) = s.tasks.length :=
    List.findIdx_eq_length_of_false fun τ hτ => by simp [Task.isOver, hs τ hτ]
  have hfirst : (x.within s cursor).tasks.findIdx (fun τ => !τ.isOver) = s.tasks.length := by
    rw [within, List.findIdx_append, hnone, if_neg (Nat.lt_irrefl _)]
    simp [List.findIdx_cons, Task.isOver, hx]
  rw [State.due, if_pos (by rfl), hfirst]

theorem after_within (hs : s.Idle) (hx : x.todo = p :: rest) (pick : Nat) :
    (x.within s cursor).after ((x.within s cursor).due pick) =
      (x.carry p rest pick).within s cursor := by
  let τ : Task := ⟨cursor, true, x.todo, x.reply⟩
  have hnext : (x.within s cursor).next? s.tasks.length = some (τ, p, rest) := by
    refine State.next?_eq_some.mpr ⟨by simp [within, τ], hx, fun hp => ?_⟩
    rw [within, hx]
    cases p <;> first | rfl | cases hp
  have hholder : (if (x.within s cursor).holder = some s.tasks.length then none
      else (x.within s cursor).holder) = none := by
    simp only [within]
    split <;> simp
  rw [due_within hs hx, State.after, State.step_of_next? hnext, State.advance, hholder]
  simp [within, carry, τ]

/-- What a computation comes to in its connection. -/
theorem Comes.within (h : Comes P n x) (hs : s.Idle) (cursor : Option CursorId)
    {picks : List Nat} (hn : picks.length = n) :
    ∃ y, P y ∧ (x.within s cursor).run ((x.within s cursor).undisturbed picks) =
      y.within s cursor := by
  induction h generalizing picks with
  | @here x h =>
    obtain rfl := List.length_eq_zero_iff.mp hn
    exact ⟨x, h, rfl⟩
  | @next x p rest n hx _ ih =>
    obtain ⟨pick, picks, rfl⟩ := List.exists_cons_of_length_eq_add_one hn
    rw [State.undisturbed, State.run_cons, after_within hs hx]
    exact ih pick (by simpa using hn)

/-- When a computation has come to its end, and so have those that it has started. -/
theorem Stands.resting {c : Connection} {r : Option Connection.Reply} (hx : x.Stands c [] [] r)
    (hs : s.Idle) (cursor : Option CursorId) :
    (x.within s cursor).Resting ∧ (x.within s cursor).conn = c ∧
      (x.within s cursor).tasks = s.tasks ++ [⟨cursor, true, [], r⟩] := by
  have htasks : (x.within s cursor).tasks = s.tasks ++ [⟨cursor, true, [], r⟩] := by
    rw [Thread.within, hx.todo, hx.reply, hx.started]
  refine ⟨⟨fun τ hτ => ?_, ?_, rfl, hx.settled⟩, hx.conn, htasks⟩
  · rw [htasks] at hτ
    rcases List.mem_append.mp hτ with hτ | hτ
    · exact hs τ hτ
    · obtain rfl := List.mem_singleton.mp hτ
      rfl
  · rw [Thread.within, hx.todo]
    rfl

/-- What comes of a report. -/
theorem Comes.handling (h : Comes P n x) {picks : List Nat} (hn : picks.length = n) :
    ∃ y, P y ∧ (x.handling s).run ((x.handling s).undisturbed picks) = y.handling s := by
  induction h generalizing picks with
  | @here x h =>
    obtain rfl := List.length_eq_zero_iff.mp hn
    exact ⟨x, h, rfl⟩
  | @next x p rest n hx _ ih =>
    obtain ⟨pick, picks, rfl⟩ := List.exists_cons_of_length_eq_add_one hn
    have hafter : (x.handling s).after ((x.handling s).due pick) =
        (x.carry p rest pick).handling s := by
      have hhandler : (x.handling s).handler = p :: rest := hx
      rw [State.due, if_neg (by simp [hhandler]), State.after, State.handle_of_handler hhandler]
      rfl
    rw [State.undisturbed, State.run_cons, hafter]
    exact ih pick (by simpa using hn)

end Thread

namespace State

variable {s : State} {call : Connection.Action} {c' : Connection} {r : Connection.Reply}
  {picks : List Nat}

/-- A call and what it has started come to their ends. -/
theorem run_of_carried (hs : s.Resting) {ps : List Point}
    (hps : ps.head?.any Point.hasWriter = false) (h : Carried s.conn ps c' r)
    (cursor : Option CursorId) :
    ∃ n, ∀ picks : List Nat, picks.length = n →
      let s₀ := s.launch ⟨cursor, true, ps, none⟩
      let s' := s₀.run (s₀.undisturbed picks)
      s'.Resting ∧ s'.conn = c' ∧ ∃ ts, s'.tasks = s.tasks ++ ⟨cursor, true, [], some r⟩ :: ts := by
  let x : Thread := ⟨s.store, ps, [], none⟩
  have hx : x.Stands s.conn ps [] none := ⟨rfl, hs.settled, rfl, rfl, rfl⟩
  have hlaunch : s.launch ⟨cursor, true, ps, none⟩ = x.within s cursor := by
    have hholder :
        s.holder = if ps.head?.any Point.hasWriter then some s.tasks.length else none := by
      rw [hps, hs.holder]
      rfl
    rw [launch, Thread.within, ← hs.handler, ← hholder]
  rcases h with ⟨n, h⟩ | ⟨d, p, hp, ⟨m, h⟩, n, hfinish⟩
  · refine ⟨n, fun picks hn => ?_⟩
    obtain ⟨y, hy, hrun⟩ := (h x [] none hx).within hs.idle cursor hn
    obtain ⟨hrest, hconn, htasks⟩ := hy.resting hs.idle cursor
    dsimp only
    rw [hlaunch, hrun]
    exact ⟨hrest, hconn, [], htasks⟩
  · refine ⟨m + n, fun picks hn => ?_⟩
    have htake : (picks.take m).length = m := by simp [hn]
    have hdrop : (picks.drop m).length = n := by simp [hn]
    obtain ⟨y, hy, hrun⟩ := (h x [] none hx).within hs.idle cursor htake
    -- what has been started is now the only computation that has not come to its end
    let s₁ : State := { s with tasks := s.tasks ++ [⟨cursor, true, [], some r⟩] }
    let z : Thread := ⟨y.store, [p], [], none⟩
    have hs₁ : s₁.Idle := fun τ hτ => by
      rcases List.mem_append.mp hτ with hτ | hτ
      · exact hs.idle τ hτ
      · obtain rfl := List.mem_singleton.mp hτ
        rfl
    have hyz : y.within s cursor = z.within s₁ none := by
      simp [Thread.within, hy.todo, hy.reply, hy.started, hp, z, s₁]
    obtain ⟨z', ⟨r', hz'⟩, hrun'⟩ := (hfinish z [] none
      ⟨hy.conn, hy.settled, rfl, rfl, rfl⟩).within hs₁ none hdrop
    obtain ⟨hrest, hconn, htasks⟩ := hz'.resting hs₁ none
    dsimp only
    rw [← List.take_append_drop m picks, run_undisturbed_append, hlaunch, hrun, hyz, hrun']
    exact ⟨hrest, hconn, [⟨none, true, [], r'⟩], by rw [htasks, List.append_assoc]; rfl⟩

theorem Resting.collect (h : s.Resting) :
    s.collect.Resting ∧ s.collect.conn = s.conn.collect ∧ s.collect.tasks = s.tasks := by
  have hover : s.tasks.all Task.isOver = true := by
    simp only [List.all_eq_true, Task.isOver, List.isEmpty_iff]
    exact h.idle
  rw [State.collect, if_pos hover]
  refine ⟨⟨h.idle, h.holder, h.handler, ?_⟩, rfl, rfl⟩
  unfold Store.Settled setConn Connection.collect
  dsimp only
  split
  · exact h.settled
  · exact h.settled.imp_right fun hstuck => ⟨hstuck.1, fun hworks => by cases hworks.2⟩

/-- The sections of a call or a report, in one piece. -/
theorem run_begin (hs : s.Resting) (horderly : s.conn.Orderly) (hadmits : s.admits call = true) :
    ∃ n, ∀ picks : List Nat, picks.length = n →
      let s' := (s.begin true call).run ((s.begin true call).undisturbed picks)
      s'.Resting ∧ Leaves s.conn call (if letsGo call then s'.conn.collect else s'.conn) ∧
        ∀ τ, s'.tasks[s.tasks.length]? = some τ → τ.reply = some (s.conn.act call).1 := by
  have hnone {P : Task → Prop} : ∀ τ, s.tasks[s.tasks.length]? = some τ → P τ := fun τ hτ => by
    rw [List.getElem?_length] at hτ
    cases hτ
  have hcall (hbegin : s.begin true call = s.launch ⟨call.cursor?, true, opening call, none⟩)
      (hopening : opening call ≠ []) (hhead : (opening call).head?.any Point.hasWriter = false) :
      ∃ n, ∀ picks : List Nat, picks.length = n →
        let s' := (s.begin true call).run ((s.begin true call).undisturbed picks)
        s'.Resting ∧ Leaves s.conn call (if letsGo call then s'.conn.collect else s'.conn) ∧
          ∀ τ, s'.tasks[s.tasks.length]? = some τ → τ.reply = some (s.conn.act call).1 := by
    have hcursor (id : CursorId) (hid : call.cursor? = some id) :
        ∃ k, s.conn.cursors[id]? = some k := by
      obtain ⟨k, hk, -⟩ := held_of_admits hadmits hid
      exact ⟨k, hk⟩
    obtain ⟨c', hcarried, hleaves⟩ := carried_call s.conn hopening hcursor
    obtain ⟨n, hrun⟩ := run_of_carried hs hhead hcarried call.cursor?
    refine ⟨n, fun picks hn => ?_⟩
    obtain ⟨hrest, hconn, ts, htasks⟩ := hrun picks hn
    dsimp only
    rw [hbegin]
    refine ⟨hrest, by rwa [hconn], fun τ hτ => ?_⟩
    rw [htasks, List.getElem?_append_right (Nat.le_refl _), Nat.sub_self] at hτ
    obtain rfl := Option.some.inj hτ
    rfl
  cases call with
  | drop =>
    refine ⟨0, fun picks hn => ?_⟩
    obtain rfl := List.length_eq_zero_iff.mp hn
    exact ⟨⟨hs.idle, hs.holder, hs.handler, hs.settled⟩, .inl rfl, hnone⟩
  | breakWriting reason =>
    refine ⟨0, fun picks hn => ?_⟩
    obtain rfl := List.length_eq_zero_iff.mp hn
    refine ⟨⟨hs.idle, hs.holder, hs.handler, ?_⟩, .inl rfl, hnone⟩
    exact hs.settled.imp_right fun hstuck => ⟨hstuck.1, fun hworks => by cases hworks.1⟩
  | report event =>
    obtain ⟨n, hgoes⟩ := goes_report horderly event
    refine ⟨n, fun picks hn => ?_⟩
    let x : Thread := ⟨s.store, [incoming event], [], none⟩
    have hbegin : s.begin true (.report event) = x.handling s := by
      rw [begin, hs.handler]
      rfl
    obtain ⟨y, hy, hrun⟩ := (hgoes x [] none ⟨rfl, hs.settled, rfl, rfl, rfl⟩).handling (s := s) hn
    dsimp only
    rw [hbegin, hrun]
    exact ⟨⟨hs.idle, hs.holder, hy.todo, hy.settled⟩, .inl hy.conn, hnone⟩
  | _ => exact hcall (by simp [begin, hadmits]) (by simp [opening]) rfl

theorem run_piece (s : State) (call : Connection.Action) (picks : List Nat) :
    s.run (s.piece call picks) =
      let s' := (s.begin true call).run ((s.begin true call).undisturbed picks)
      if letsGo call then s'.collect else s' := by
  rw [piece, run_cons, run_append]
  cases letsGo call <;> rfl

/-- When a call has come to its end, it makes no difference for how long one waits. -/
theorem run_piece_append {ps qs : List Nat}
    (hidle : ((s.begin true call).run ((s.begin true call).undisturbed ps)).Idle)
    (hhandler : ((s.begin true call).run ((s.begin true call).undisturbed ps)).handler = []) :
    s.run (s.piece call (ps ++ qs)) = s.run (s.piece call ps) := by
  rw [run_piece, run_piece, run_undisturbed_append, run_of_idle hidle hhandler]

/-- What comes of a call that nothing interrupts. -/
structure Achieves (s : State) (call : Connection.Action) (s' : State) : Prop where
  resting : s'.Resting
  leaves : Leaves s.conn call s'.conn
  reply : ∀ τ, s'.tasks[s.tasks.length]? = some τ → τ.reply = some (s.conn.act call).1

/-- A call that nothing interrupts comes to its end, and does what the action in one piece does. -/
theorem run_call (hs : s.Resting) (horderly : s.conn.Orderly) (hadmits : s.admits call = true) :
    ∃ n, ∀ picks : List Nat, n ≤ picks.length → s.Achieves call (s.run (s.piece call picks)) := by
  obtain ⟨n, hrun⟩ := run_begin hs horderly hadmits
  refine ⟨n, fun picks hn => ?_⟩
  obtain ⟨hrest, hleaves, hreply⟩ := hrun (picks.take n) (List.length_take_of_le hn)
  rw [← List.take_append_drop n picks, run_piece_append hrest.idle hrest.handler, run_piece]
  dsimp only
  split
  next hgo =>
    obtain ⟨hend, hconn, htasks⟩ := hrest.collect
    rw [if_pos hgo] at hleaves
    exact ⟨hend, by rwa [hconn], by rwa [htasks]⟩
  next hstays =>
    rw [if_neg hstays] at hleaves
    exact ⟨hrest, hleaves, hreply⟩

/-- A call that nothing has interrupted and that has come to its end has done so, too. -/
theorem achieves_of_resting (hs : s.Resting) (horderly : s.conn.Orderly)
    (hadmits : s.admits call = true) (hrest : (s.run (s.piece call picks)).Resting) :
    s.Achieves call (s.run (s.piece call picks)) := by
  obtain ⟨n, hrun⟩ := run_call hs horderly hadmits
  have hlong := hrun (picks ++ .replicate n 0) (by simp)
  rwa [run_piece_append] at hlong
  · intro τ hτ
    refine hrest.idle τ ?_
    rw [run_piece]
    dsimp only
    split
    · rwa [collect_tasks]
    · exact hτ
  · have hhandler := hrest.handler
    rw [run_piece] at hhandler
    dsimp only at hhandler
    split at hhandler
    · rwa [collect_handler] at hhandler
    · exact hhandler

/-- Each call on a cursor is made while its owner has it, and no request fails that is made while
the connection is open. -/
def GoesWell (c : Connection) : List Connection.Action → Prop
  | [] => True
  | call :: calls =>
    (∀ id, call.cursor? = some id → ∃ k, c.cursors[id]? = some k ∧ k.held = true) ∧
      (c.closed = false → (call.request? c).isSome = true → (c.act call).1 = .done none) ∧
      GoesWell (c.after call) calls

/-- Calls and reports, one after another, each in one piece. -/
inductive InPieces : State → List Connection.Action → List Action → Prop where
  | nil (s : State) : InPieces s [] []
  | cons {s : State} {call : Connection.Action} {calls : List Connection.Action} {as : List Action}
    (picks : List Nat) (hrest : (s.run (s.piece call picks)).Resting)
    (h : InPieces (s.run (s.piece call picks)) calls as) :
    InPieces s (call :: calls) (s.piece call picks ++ as)

variable {calls : List Connection.Action} {as : List Action}

theorem admits_of_held (hs : s.Resting) (hheld : ∀ id, call.cursor? = some id →
    ∃ k, s.conn.cursors[id]? = some k ∧ k.held = true) : s.admits call = true := by
  have hfree (id : CursorId) : s.isBusy id = false := by
    rw [isBusy, List.any_eq_false]
    intro τ hτ
    simp [Task.isOver, hs.idle τ hτ]
  unfold admits
  cases hid : call.cursor? with
  | none => rfl
  | some id =>
    rw [Option.all_some, hfree, Bool.not_false, Bool.and_true, Option.any_eq_true]
    exact hheld id hid

/-- A call in one piece, in a run that goes well. -/
theorem conn_of_achieves {s' : State} (h : s.Achieves call s')
    (hwell : GoesWell s.conn (call :: calls)) : s'.conn = s.conn.after call := by
  rcases h.leaves with h | ⟨ho, ⟨q, hq⟩, ⟨e, he⟩, -⟩
  · exact h
  · have hnone := hwell.2.1 ho (by rw [hq]; rfl)
    rw [he] at hnone
    cases hnone

theorem exists_inPieces (hs : s.Resting) (horderly : s.conn.Orderly) (h : GoesWell s.conn calls) :
    ∃ as, s.InPieces calls as := by
  induction calls generalizing s with
  | nil => exact ⟨[], .nil s⟩
  | cons call calls ih =>
    obtain ⟨n, hrun⟩ := run_call hs horderly (admits_of_held hs h.1)
    have hdone := hrun (.replicate n 0) (by simp)
    have hconn := conn_of_achieves hdone h
    obtain ⟨as, has⟩ := ih hdone.resting (hconn ▸ horderly.after call) (hconn ▸ h.2.2)
    exact ⟨_, .cons _ hdone.resting has⟩

theorem InPieces.conn_run (h : s.InPieces calls as) (hs : s.Resting) (horderly : s.conn.Orderly)
    (hwell : GoesWell s.conn calls) : (s.run as).conn = s.conn.run calls := by
  induction h with
  | nil s => rfl
  | @cons s call calls as picks hrest _ ih =>
    have hdone := achieves_of_resting hs horderly (admits_of_held hs hwell.1) hrest
    have hconn := conn_of_achieves hdone hwell
    rw [run_append, Connection.run_cons, ← hconn]
    exact ih hrest (hconn ▸ horderly.after call) (hconn ▸ hwell.2.2)

/-- Where each call and each report is carried out in one piece, a run is one of the connection in
actions of one piece, and every run of these arises so. -/
theorem run_in_pieces (settings : Settings) (calls : List Connection.Action)
    (h : GoesWell (.start settings) calls) : (∃ as, (start settings).InPieces calls as) ∧
      ∀ as, (start settings).InPieces calls as →
        ((start settings).run as).conn = (Connection.start settings).run calls :=
  ⟨exists_inPieces (resting_start settings) (Connection.orderly_start settings) h,
    fun _ has => has.conn_run (resting_start settings) (Connection.orderly_start settings) h⟩

/-- A call that is interrupted may do what none of these actions does. While more is asked for and
the writer is waited for, a batch arrives and the stream fails; then the error is read before the
value. -/
example :
    let batch (values : String) : Action :=
      .begin (.report (.frame ⟨1, Bytes.ofString ("\x7b\"t\":3,\"r\":" ++ values ++ "\x7d")⟩)) true
    let as : List Action :=
      .begin (.query .anything default false) true :: .replicate 9 (.step 0 0) ++
      batch "[]" :: .replicate 2 (.handle 0) ++ .begin (.next 0) true :: .replicate 4 (.step 1 0) ++
      batch "[true]" :: .replicate 2 (.handle 0) ++ .begin (.breakWriting "gone") true ::
      .replicate 12 (.step 1 0) ++ .begin (.next 0) true :: .replicate 2 (.step 2 0)
    ((start default).run as).tasks.filterMap
        (fun τ => match τ.reply with | some (.read r) => r | _ => none) =
      [.error (.transport "gone"), .ok (some (.bool true))] := by decide +kernel

end State
end Reql.Async
