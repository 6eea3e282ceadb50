import Reql.Proofs.Connection.Asking
import Reql.Proofs.Connection.Priming

/-! A query that is asked for its effects alone leaves nothing behind. -/
namespace Reql.Connection

open Cursor (Event Step Steps Untouched primed)

variable {c d : Connection} {id : CursorId} {k l : Cursor} {t : Token} {h : List Event}
  {noreply : Bool}

/-- A call that executes a query, by what the inbox says about its first answer. -/
theorem advance_exec_eq {r : Inbox.Primed} {s : Inbox} (hk : c.cursors[id]? = some k)
    (hprime : k.inbox.prime = (r, s)) : c.advance id .exec = match r with
      | .ready => (.inl ((c.closeCursor id).1.elim .done .failed),
          (c.closeCursor id).2.dropCursor id)
      | .failed e => (.inl (.failed e), ((c.modifyInbox id fun _ => s).finish id).dropCursor id)
      | .wait => (.inr .exec, c) := by
  rw [advance_exec, prime?_eq hk hprime]
  cases r <;> rfl

/-- An error in the first answer is the outcome. -/
theorem exec_of_failed {e : ClientError} (hk : c.cursors[id]? = some k)
    (hprime : k.inbox.prime.1 = .failed e) : (c.advance id .exec).1 = .inl (.failed e) ∧
      (c.advance id .exec).2.written = c.written ∧ (c.advance id .exec).2.Over id k.token := by
  have hprimed : k.inbox.prime = (.failed e, k.inbox.prime.2) := Prod.ext hprime rfl
  obtain ⟨hwritten, hover⟩ := dropped_of_prime hk hprimed
  rw [advance_exec_eq hk hprimed]
  exact ⟨rfl, hwritten, hover⟩

/-- Otherwise the cursor is closed. -/
theorem exec_of_ready (hk : c.cursors[id]? = some k) (hs : k.Sound) (he : k.exclusive = false)
    (hc : k.inbox.closed = false) (hprime : k.inbox.prime.1 = .ready) :
    (c.advance id .exec).1 =
        .inl ((if k.inbox.serverDone then none else (c.stop k.token).1).elim .done .failed) ∧
      (c.advance id .exec).2.written =
        (if k.inbox.serverDone then c.written else (c.stop k.token).2.written) ∧
      (c.advance id .exec).2.Over id k.token := by
  have hprimed : k.inbox.prime = (.ready, k.inbox.prime.2) := Prod.ext hprime rfl
  have hreply := closeCursor_reply hk hc
  have hwritten := closeCursor_written hk hc
  obtain ⟨l, hl, hstep⟩ := step_closeCursor hk hs
  obtain ⟨hdropped, hover⟩ := dropCursor_of_closed hl (hstep.sound hs) hstep.inbox_closed
    (closeCursor_isRegistered hk hc)
  rw [advance_exec_eq hk hprimed]
  refine ⟨?_, hdropped.trans ?_, hover⟩
  · rw [hreply]
    cases k.inbox.serverDone <;> simp [he]
  · rw [hwritten]
    cases k.inbox.serverDone <;> simp [he]

/-! ### The cursors of others -/

section Shuts

variable {P : ClientError → Prop} {E : Token → Prop} {O : CursorId → Prop}

/-- Dropping a closed cursor that shares its connection concerns nobody. -/
theorem dropCursor_shuts_of_closed (hk : c.cursors[id]? = some k) (hc : k.inbox.closed = true)
    (he : k.exclusive = false) (hid : O id) : Shuts P E O c (c.dropCursor id) := by
  have hrunning : k.inbox.isRunning = false := by simp [Inbox.isRunning, hc]
  rw [dropCursor_eq hk, hrunning, he]
  exact (c.modifyInbox_shuts hid _).trans (letGo_shuts _ hid)

/-- Closing a cursor that shares its connection concerns others only if the stream fails. -/
theorem closeCursor_shuts_of_shared (hk : c.cursors[id]? = some k) (he : k.exclusive = false)
    (ht : E k.token) (hid : O id) :
    Shuts (c.FailsFor (.bare k.token .stop)) E O c (c.closeCursor id).2 := by
  have hgone : Shuts (c.FailsFor (.bare k.token .stop)) E O c
      ((c.modifyInbox id Inbox.close).deregister k.token) :=
    (c.modifyInbox_shuts hid _).trans (deregister_shuts _ ht)
  simp only [closeCursor, hk, he, Bool.false_eq_true, if_false]
  split
  · exact (Spares.refl c).shuts rfl
  · split
    · exact hgone
    · exact hgone.trans (stop_shuts _ fun reason hw _ =>
        ⟨reason, rfl, write_of_writer_eq hw rfl⟩)

end Shuts

/-- Executing a query concerns other cursors only if the stream fails when it is stopped. -/
theorem exec_undisturbed (horderly : Orderly c) (hk : c.cursors[id]? = some k)
    (he : k.exclusive = false) :
    Undisturbed (.bare k.token .stop) c (c.advance id .exec).2 := by
  have hs := horderly.sound id k hk
  have hshuts : Shuts (c.FailsFor (.bare k.token .stop)) (· = k.token) (· = id) c
      (c.advance id .exec).2 := by
    have hset (s : Inbox) : Shuts (c.FailsFor (.bare k.token .stop)) (· = k.token) (· = id) c
        (c.modifyInbox id fun _ => s) := modifyInbox_shuts (O := (· = id)) c rfl _
    obtain ⟨r, s, hprime⟩ : ∃ r s, k.inbox.prime = (r, s) := ⟨_, _, rfl⟩
    rw [advance_exec_eq hk hprime]
    cases r with
    | wait => exact (Spares.refl c).shuts rfl
    | failed e =>
      have hk' := getElem?_modifyInbox hk fun _ => s
      exact ((hset s).trans (finish_shuts _ hk' rfl fun h => absurd (he.symm.trans h) nofun)).trans
        (dropCursor_shuts_of_closed (getElem?_finish hk') (closed_of_prime hprime) he rfl)
    | ready =>
      obtain ⟨l, hl, hstep⟩ := step_closeCursor hk hs
      have hclose : Shuts (c.FailsFor (.bare k.token .stop)) (· = k.token) (· = id) c
          (c.closeCursor id).2 := closeCursor_shuts_of_shared hk he rfl rfl
      exact hclose.trans
        (dropCursor_shuts_of_closed hl hstep.inbox_closed (hstep.exclusive_eq.trans he) rfl)
  refine hshuts.undisturbed horderly fun i l hl hi => ?_
  obtain rfl : i = id := hi
  rw [Option.some.inj (hk.symm.trans hl)]
  rfl

/-! ### The call -/

/-- What executing a query with the token `t` does in a connection `c`, after the history `h` of
its cursor at `id`. -/
structure Executes (c : Connection) (id : CursorId) (t : Token) (noreply : Bool)
    (h : List Event) : Prop where
  /-- It waits for a reply if it wants one, and for nothing else. -/
  waits : (c.advance id .exec).1 = .inr .exec ↔ noreply = false ∧ ∀ v ∈ h, v.isReply = false
  patient : (c.advance id .exec).1 = .inr .exec → (c.advance id .exec).2 = c
  unanswered : noreply = true →
    (c.advance id .exec).1 = .inl .done ∧ (c.advance id .exec).2.written = c.written
  /-- It fails with the error in the reply; after a batch the server is asked to stop, and it fails
  if that cannot be written. -/
  answered : ∀ v, h = [v] → v.isReply = true →
    let stopped := (c.write (.bare t .stop)).1
    (c.advance id .exec).1 =
        .inl ((v.failure?.or (if v.isBatch then stopped else none)).elim .done .failed) ∧
      (c.advance id .exec).2.written =
        c.written ++ if v.isBatch then sent (.bare t .stop) stopped else []
  /-- With any outcome, nothing is left. -/
  ended : ∀ o, (c.advance id .exec).1 = .inl o →
    (c.advance id .exec).2.Over id t ∧ (c.advance id .exec).2.Forgets t
  others : Undisturbed (.bare t .stop) c (c.advance id .exec).2

theorem executes_of_steps (horderly : Orderly c) (hl : l.New t noreply) (hsteps : Steps l h k)
    (hk : c.cursors[id]? = some k) (he : k.exclusive = false)
    (hforeign : ∀ v ∈ h, v.isForeign = true) : Executes c id t noreply h := by
  have hu := Untouched.steps hl hsteps hforeign
  obtain rfl : k.token = t := hsteps.token_eq.trans hl.token
  have hready := exec_of_ready hk hu.sound he hu.closed
  have hfailed (e : ClientError) := exec_of_failed (e := e) hk
  have hwait (hw : k.inbox.prime.1 = .wait) : c.advance id .exec = (.inr .exec, c) :=
    advance_exec_eq hk (Prod.ext hw rfl : k.inbox.prime = (.wait, k.inbox.prime.2))
  have hdone := hu.done
  rw [hu.prime] at hready hfailed hwait
  refine ⟨?_, ?_, ?_, ?_, ?_, exec_undisturbed horderly hk he⟩
  · rw [← Cursor.primed_eq_wait hforeign]
    cases hp : primed noreply h with
    | ready => simp [(hready hp).1]
    | failed e => simp [(hfailed e hp).1]
    | wait => simp [hwait hp]
  · intro hw
    cases hp : primed noreply h with
    | ready => rw [(hready hp).1] at hw; cases hw
    | failed e => rw [(hfailed e hp).1] at hw; cases hw
    | wait => rw [hwait hp]
  · rintro rfl
    obtain rfl := hsteps.eq_nil_of_foreign hl.registered hforeign
    obtain ⟨houtcome, hwritten, -⟩ := hready rfl
    rw [houtcome, hwritten, hdone]
    exact ⟨rfl, rfl⟩
  · rintro v rfl hreply stopped
    have hnoreply : noreply = false := by
      cases noreply with
      | false => rfl
      | true => cases hsteps.eq_nil_of_foreign hl.registered hforeign
    obtain ⟨m, hm, rfl⟩ := hsteps
    have hprimed : primed noreply [v] = v.failure?.elim .ready .failed :=
      Cursor.primed_singleton hreply
    have hbatch := Event.isBatch_of_isReply hreply
    cases hf : v.failure? with
    | some e =>
      rw [hf] at hprimed
      obtain ⟨houtcome, hwritten, -⟩ := hfailed e hprimed
      rw [houtcome, hwritten, Event.isBatch_of_failure hf]
      exact ⟨rfl, (List.append_nil _).symm⟩
    | none =>
      rw [hf] at hprimed
      obtain ⟨houtcome, hwritten, -⟩ := hready hprimed
      have hserver : m.inbox.serverDone = v.isFinal := by simp [hdone, hnoreply]
      rw [houtcome, hwritten, hserver, hbatch]
      cases hfinal : v.isFinal with
      | true => exact ⟨rfl, (List.append_nil _).symm⟩
      | false =>
        have harrival : v.isArrival = true := by simpa [Event.isReply, hfinal] using hreply
        have hregistered : m.registered = true := by
          rw [(hm.registered_of_arrival harrival).2, hfinal]
          rfl
        obtain ⟨hstop, hstopped⟩ := c.stop_eq m.token
        rw [horderly.open_of_registered hk hregistered] at hstop hstopped
        simp [hstop, hstopped, stopped]
  · intro o ho
    have hover : (c.advance id .exec).2.Over id k.token := by
      cases hp : primed noreply h with
      | ready => exact (hready hp).2.2
      | failed e => exact (hfailed e hp).2.2
      | wait => rw [hwait hp] at ho; cases ho
    exact ⟨hover, forgets_of_not_registered hover.1⟩

/-- Executing a query leaves nothing behind. It is written once, and if that fails, then only its
error remains, which others are told if the stream has failed. Without an answer wanted, its token
is never registered, and the call is over at once. Otherwise it is over with the first reply: with
the error in it, or with that of asking the server to stop, which is done exactly after a batch.
And when it is over, its token is not registered, and what arrives late under it changes nothing;
the cursors of others are as they were, unless the stream has failed. -/
theorem executing_leaves_nothing (s : Settings) (as : List Action) (term : Term)
    (options : QueryOptions) (ho : ((start s).run as).closed = false)
    (hfew : ((start s).taken as).length < 2 ^ 64) :
    let c := (start s).run as
    let t := c.tokens.next
    let r := c.query term options false
    Posed c (c.startOf term options) options.isNoreply r ∧
      ∀ id bs, r.1 = .ok id → (∀ b ∈ bs, b.cursor? ≠ some id) →
        (∀ v ∈ r.2.history id bs, v.isReply = true →
          (∃ f, .report (.frame f) ∈ bs ∧ f.token = t ∧ v = .ofFrame f) ∨ ∃ e, v = .lost e) ∧
        Executes (r.2.run bs) id t options.isNoreply (r.2.history id bs) := by
  intro c t r
  have horderly : Orderly c := (orderly_start s).run as
  have hfresh : ∀ k ∈ c.cursors, k.token ≠ t := fun k hk ht =>
    (numbered_run s as).next_fresh hfew (List.mem_map.mpr ⟨k, hk, ht⟩)
  refine ⟨posed_query horderly hfresh ho term options false, fun id bs hr howner => ?_⟩
  obtain ⟨l, hl, he, hq⟩ := query_eq ho term options false
  have hid : placed l _ = (.ok id, r.2) := hq.symm.trans (Prod.ext hr rfl)
  have hl' : r.2.cursors[id]? = some l := (placed_ok hid).2.2.2
  have horderly' : Orderly r.2 := horderly.after (.query term options false)
  obtain ⟨k, hk, hsteps⟩ := steps_run bs hl' hl.sound
  refine ⟨fun v hv hreply => ?_, ?_⟩
  · have hrouted := routed_of_isReply hl' hl.sound hv hreply
    rwa [hl.token] at hrouted
  · exact executes_of_steps (horderly'.run bs) hl hsteps hk (hsteps.exclusive_eq.trans he)
      fun v hv => foreign_of_mem_history hl' hl.sound howner hv

/-- Beside a query that waits, another one is executed, and its first answer is a batch. -/
theorem executing_leaves_nothing_batch :
    let as : List Action := [.query .anything default false]
    let c := (start default).run as
    let r := c.query .anything default false
    let bs : List Action := [.report (.frame ⟨2, Bytes.ofString "\x7b\"t\":3,\"r\":[\"a\"]\x7d"⟩)]
    let d := r.2.run bs
    c.closed = false ∧ ((start default).taken as).length < 2 ^ 64 ∧
      Posed c (c.startOf .anything default) false r ∧ r.1 = .ok 1 ∧
      (∀ b ∈ bs, b.cursor? ≠ some 1) ∧ (d.advance 1 .exec).1 = .inl .done ∧
      (d.advance 1 .exec).2.written = d.written ++ [.bare 2 .stop] ∧
      (d.advance 1 .exec).2.Forgets 2 ∧ (d.advance 1 .exec).2.cursors[0]? = c.cursors[0]? := by
  intro as c r bs d
  have ho : c.closed = false := by decide +kernel
  have hfew : ((start default).taken as).length < 2 ^ 64 := by decide +kernel
  have howner : ∀ b ∈ bs, b.cursor? ≠ some 1 := by decide
  obtain ⟨hposed, hexecutes⟩ := executing_leaves_nothing default as .anything default ho hfew
  have hasked : r.1 = .ok 1 := by
    have h : r.1.toOption = some 1 := by decide +kernel
    cases hr : r.1 with
    | error e => rw [hr] at h; cases h
    | ok id => rw [hr] at h; exact congrArg _ (Option.some.inj h)
  have htoken : c.tokens.next = 2 := by decide +kernel
  have hexecutes : Executes d 1 2 false (r.2.history 1 bs) :=
    htoken ▸ (hexecutes 1 bs hasked howner).2
  have hhistory : r.2.history 1 bs = [.answered (.plain 2 (.batch [.str "a"]))] := by
    decide +kernel
  have hstop : (d.write (.bare 2 .stop)).1 = none := by decide +kernel
  have hothers : (d.advance 1 .exec).2.cursors[0]? = c.cursors[0]? := by decide +kernel
  obtain ⟨hdone, hwritten⟩ := hexecutes.answered _ hhistory rfl
  rw [hstop] at hdone hwritten
  rw [if_pos (by rfl)] at hwritten
  exact ⟨ho, hfew, hposed, hasked, howner, hdone, hwritten, (hexecutes.ended _ hdone).2, hothers⟩

end Reql.Connection
