import Mathlib.Logic.Function.Iterate
import Reql.Proofs.Connection.FlowControl
import Reql.Proofs.Connection.Idle
import Reql.Proofs.Connection.Shutdown
import Reql.Proofs.Cursor.Waiting

/-! Consuming a cursor while a server answers each request once: whenever the answers come, the
caller gets the same. -/
namespace Reql.Connection

open Cursor (Event Step)

/-- What a server sends for a request: a payload, which need not be an answer, something that the
reader refuses, or its end. -/
inductive Retort where
  | payload (bytes : Bytes)
  | broken (error : FramingError)
  | ended

/-- What the stream reports of it. -/
def Retort.event (t : Token) : Retort → FrameEvent
  | .payload bytes => .frame ⟨t, bytes⟩
  | .broken e => .failed e
  | .ended => .ended

/-- A server, which chooses what it sends by all the requests that it has received. -/
abbrev Peer := List Query → Retort

/-- A connection, and how many of the requests under a token have been answered. -/
structure Scene where
  connection : Connection
  answered : Nat

/-- A way of consuming a cursor: the first call, and the call after one that is done, if any. -/
structure Consumer where
  first : Call
  again : Outcome → Option Call

/-- A cursor in use: the call in progress, if any, and what the calls before it came to. -/
structure Dialogue extends Scene where
  call : Option Call
  outcomes : List Outcome

/-- What can happen next: the caller goes on with the call as far as possible, or the server answers
a request that it has not answered yet. -/
inductive Turn where
  | caller
  | peer

/-- How often the server and then the caller have had a turn. The server may have had the first. -/
def Turn.rounds : Bool → List Turn → Nat
  | _, [] => 0
  | _, .peer :: turns => rounds true turns
  | true, .caller :: turns => rounds false turns + 1
  | false, .caller :: turns => rounds false turns

/-- A scene in which a cursor is about to be consumed. -/
def Scene.start (s : Scene) (k : Consumer) : Dialogue :=
  ⟨s, some k.first, []⟩

@[simp] theorem Scene.start_connection (s : Scene) (k : Consumer) :
    (s.start k).connection = s.connection :=
  rfl

@[simp] theorem Scene.start_call (s : Scene) (k : Consumer) : (s.start k).call = some k.first :=
  rfl

/-- Those who talk: a server, and the owner of the cursor at a place, under its token. -/
structure Parties where
  peer : Peer
  token : Token
  cursor : CursorId

namespace Parties

variable (p : Parties) (k : Consumer)

/-- The server answers a request, if it owes an answer to one. -/
def reply (s : Scene) : Scene :=
  if s.answered < s.connection.requestsUnder p.token then
    ⟨s.connection.handle ((p.peer s.connection.written).event p.token), s.answered + 1⟩
  else s

def after (d : Dialogue) : Turn → Dialogue
  | .peer => { d with toScene := p.reply d.toScene }
  | .caller =>
    match d.call with
    | none => d
    | some call =>
      let (r, connection) := d.connection.advance p.cursor call
      match r with
      | .inr call => ⟨⟨connection, d.answered⟩, some call, d.outcomes⟩
      | .inl o => ⟨⟨connection, d.answered⟩, k.again o, d.outcomes ++ [o]⟩

def run (d : Dialogue) (turns : List Turn) : Dialogue :=
  turns.foldl (p.after k) d

/-- The dialogue when both have had a turn, the server first. -/
def round (d : Dialogue) : Dialogue :=
  p.after k (p.after k d .peer) .caller

/-- The consumption comes to its end if only the server and the caller have enough turns, and
whatever their turns are, it has these outcomes then, and these requests have been written. -/
def Settles (d : Dialogue) (outcomes : List Outcome) (written : List Query) : Prop :=
  (∃ n, ∀ turns, n ≤ Turn.rounds false turns → (p.run k d turns).call = none) ∧
    ∀ turns, (p.run k d turns).call = none →
      (p.run k d turns).outcomes = outcomes ∧ (p.run k d turns).connection.written = written

end Parties

/-! ### A server that owes an answer exactly when one is on its way -/

section Owing

variable {p : Parties} {k l : Cursor} {s : Scene} {c : Connection} {n : Nat} {f : Frame}

theorem requestsUnder_of_written {c' : Connection} (h : c'.written = c.written) (t : Token) :
    c'.requestsUnder t = c.requestsUnder t := by
  rw [requestsUnder, requestsUnder, h]

/-- A server that is asked to stop owes no answer for it. -/
theorem requestsUnder_of_stop {c' : Connection} {u : Token}
    (h : c'.written = c.written ++ [.bare u .stop]) (t : Token) :
    c'.requestsUnder t = c.requestsUnder t := by
  rw [requestsUnder, requestsUnder, h, List.countP_append]
  simp [Query.bare, Query.isOpening]

theorem requestsUnder_of_continue {c' : Connection} {t : Token}
    (h : c'.written = c.written ++ [.bare t .continue]) :
    c'.requestsUnder t = c.requestsUnder t + 1 := by
  rw [requestsUnder, requestsUnder, h, List.countP_append]
  simp [Query.bare, Query.isOpening]

namespace Parties

/-- The cursor is registered as long as its server is to go on, and the server owes an answer under
its token, and one only, when one is on its way to the cursor. -/
structure InStep (p : Parties) (k : Cursor) (s : Scene) : Prop where
  orderly : Orderly s.connection
  cursor : s.connection.cursors[p.cursor]? = some k
  token : k.token = p.token
  tidy : k.Tidy
  registered : k.inbox.isRunning = true → k.registered = true
  owed : k.inbox.isRunning = true →
    s.connection.requestsUnder p.token = s.answered + k.inbox.isWaiting.toNat
  paid : k.inbox.isRunning = false → s.connection.requestsUnder p.token ≤ s.answered

namespace InStep

theorem owes_iff (h : p.InStep k s) :
    s.answered < s.connection.requestsUnder p.token ↔ k.inbox.isWaiting = true := by
  cases hrun : k.inbox.isRunning with
  | true =>
    rw [h.owed hrun]
    cases k.inbox.isWaiting <;> simp
  | false =>
    rw [Inbox.isWaiting_of_not_running hrun]
    simpa using h.paid hrun

theorem running_of_waiting (hw : k.inbox.isWaiting = true) : k.inbox.isRunning = true := by
  cases hrun : k.inbox.isRunning with
  | true => rfl
  | false =>
    rw [Inbox.isWaiting_of_not_running hrun] at hw
    cases hw

/-- A server that owes nothing says nothing. -/
theorem reply_eq_self (h : p.InStep k s) (hw : k.inbox.isWaiting = false) : p.reply s = s := by
  rw [reply, if_neg]
  rw [h.owes_iff, hw]
  decide

end InStep
end Parties

/-- A frame under its token ends the waiting of a registered cursor. -/
theorem receive_not_waiting (hk : k.Sound) (hr : k.registered = true) (ht : k.token = f.token) :
    (k.receive f).inbox.isWaiting = false ∧
      ((k.receive f).inbox.isRunning = true → (k.receive f).registered = true) := by
  rw [Cursor.receive, if_pos ⟨hr, ht⟩]
  cases hdecode : Response.decode f.token f.payload with
  | ok r =>
    dsimp only
    rw [hk.deliver_eq hr]
    exact ⟨by simp [Inbox.isWaiting], fun hrun => by simpa using (Inbox.isRunning_iff.mp hrun).2⟩
  | error e =>
    have hrun := Cursor.isRunning_fail hk hr (.ofProtocol e)
    exact ⟨Inbox.isWaiting_of_not_running hrun, fun h => by rw [hrun] at h; cases h⟩

theorem lose_not_running (hk : k.Sound) (hr : k.registered = true) (e : ClientError) :
    (k.lose e).inbox.isRunning = false := by
  rw [lose_of_registered hk hr]
  simp [Inbox.isRunning]

/-- Whatever the stream reports under its token, a registered cursor does not wait any more. -/
theorem handle_not_waiting (horderly : Orderly c) {i : CursorId} (hk : c.cursors[i]? = some k)
    (hr : k.registered = true) (r : Retort) :
    ∃ l, (c.handle (r.event k.token)).cursors[i]? = some l ∧ l.inbox.isWaiting = false ∧
      (l.inbox.isRunning = true → l.registered = true) := by
  have hs := horderly.sound i k hk
  have ho := horderly.open_of_registered hk hr
  have hlost (e : ClientError) : (k.lose e).inbox.isWaiting = false ∧
      ((k.lose e).inbox.isRunning = true → (k.lose e).registered = true) := by
    have hrun := lose_not_running hs hr e
    exact ⟨Inbox.isWaiting_of_not_running hrun, fun h => by rw [hrun] at h; cases h⟩
  cases r with
  | payload bytes => exact ⟨_, getElem?_route ⟨k.token, bytes⟩ hk, receive_not_waiting hs hr rfl⟩
  | broken e => exact ⟨_, c.getElem?_shutDown ho (.ofFraming e) hk, hlost _⟩
  | ended => exact ⟨_, c.getElem?_shutDown ho .connectionClosed hk, hlost _⟩

theorem tidy_run {s : Settings} {as : List Action} {i : CursorId}
    (hk : ((start s).run as).cursors[i]? = some k) : k.Tidy := by
  obtain ⟨t, noreply, h, k₀, hnew, -, hsteps⟩ := steps_of_none (start_none s i) hk
  exact hsteps.tidy hnew.tidy

namespace Parties

theorem reply_written (p : Parties) (s : Scene) :
    (p.reply s).connection.written = s.connection.written := by
  unfold reply
  split
  · exact (handle_quiet _ _).written
  · rfl

theorem reply_orderly (p : Parties) (h : Orderly s.connection) :
    Orderly (p.reply s).connection := by
  unfold reply
  split
  · exact h.after (.report _)
  · exact h

/-- A server that has answered owes nothing. -/
theorem InStep.reply (h : p.InStep k s) :
    ∃ l, p.InStep l (p.reply s) ∧ l.inbox.isWaiting = false := by
  cases hw : k.inbox.isWaiting with
  | false => exact ⟨k, (h.reply_eq_self hw).symm ▸ h, hw⟩
  | true =>
    have hrun := InStep.running_of_waiting hw
    have hr := h.registered hrun
    have howed := h.owed hrun
    rw [hw] at howed
    have hreply : p.reply s =
        ⟨s.connection.handle ((p.peer s.connection.written).event p.token), s.answered + 1⟩ := by
      rw [Parties.reply, if_pos (h.owes_iff.mpr hw)]
    obtain ⟨l, hl, hlw, hlr⟩ :=
      handle_not_waiting h.orderly h.cursor hr (p.peer s.connection.written)
    rw [h.token] at hl
    obtain ⟨l', hl', hsteps⟩ :=
      steps_after (.report ((p.peer s.connection.written).event p.token)) h.cursor h.tidy.sound
    obtain rfl : l = l' := Option.some.inj (hl.symm.trans hl')
    have hcount : (p.reply s).connection.requestsUnder p.token = (p.reply s).answered := by
      rw [requestsUnder_of_written (p.reply_written s), howed, hreply]
      rfl
    refine ⟨l, ⟨p.reply_orderly h.orderly, ?_, hsteps.token_eq.trans h.token,
      hsteps.tidy h.tidy, hlr, fun _ => ?_, fun _ => Nat.le_of_eq hcount⟩, hlw⟩
    · rw [hreply]
      exact hl
    · rw [hcount, hlw]
      rfl

theorem InStep.reply_reply (h : p.InStep k s) : p.reply (p.reply s) = p.reply s := by
  obtain ⟨l, hl, hw⟩ := h.reply
  exact hl.reply_eq_self hw

/-! ### Calls while a server owes nothing, and while it owes an answer -/

/-- Nothing happens to a cursor while an answer is on its way to it. -/
theorem InStep.advance_of_waiting (h : p.InStep k s) (hw : k.inbox.isWaiting = true)
    (call : Call) : s.connection.advance p.cursor call = (.inr call, s.connection) := by
  have hr := h.registered (InStep.running_of_waiting hw)
  have hread : s.connection.next? p.cursor = (none, s.connection) :=
    next?_of_step h.cursor (h.tidy.step_of_waiting hr hw)
  have hprime : s.connection.prime? p.cursor = (none, s.connection) := by
    simp only [prime?, h.cursor, h.tidy.prime_of_waiting hr hw]
  cases call with
  | next => rw [advance_next, hread]
  | all values => rw [advance, collectAll_succ, hread]
  | one => rw [advance_one, hread]
  | stream => rw [advance_stream, hread]
  | run => rw [advance_run, hprime]
  | exec => rw [advance_exec, hprime]
  | barrier => rw [advance, exhaust_succ, hread]

/-- The server owes nothing. -/
def Rests (p : Parties) (k : Cursor) (s : Scene) : Prop :=
  p.InStep k s ∧ k.inbox.isWaiting = false

theorem Rests.count_le (h : p.Rests k s) :
    s.connection.requestsUnder p.token ≤ s.answered := by
  have := mt h.1.owes_iff.mp (by rw [h.2]; decide)
  omega

/-- A server owes nothing for a cursor that is done. -/
theorem Rests.of_not_running (horderly : Orderly s.connection)
    (hl : s.connection.cursors[p.cursor]? = some l) (ht : l.token = p.token) (htidy : l.Tidy)
    (hrun : l.inbox.isRunning = false)
    (hcount : s.connection.requestsUnder p.token ≤ s.answered) : p.Rests l s := by
  refine ⟨⟨horderly, hl, ht, htidy, fun h => ?_, fun h => ?_, fun _ => hcount⟩,
    Inbox.isWaiting_of_not_running hrun⟩ <;> simp [hrun] at h

/-- What its owner does to a cursor leaves a server in step that owes nothing: it owes an answer
afterwards if more has been asked for, and only then. -/
theorem Rests.step {c' : Connection} {v : Event} (h : p.Rests k ⟨c, n⟩) (horderly : Orderly c')
    (hl : c'.cursors[p.cursor]? = some l) (hs : Step k v l)
    (hv : v.isRead = true ∨ v.isRelease = true)
    (hcount : c'.requestsUnder p.token = c.requestsUnder p.token + (v == .fetched).toNat) :
    p.InStep l ⟨c', n⟩ ∧ (v ≠ .fetched → l.inbox.isWaiting = false) := by
  obtain ⟨hin, hw⟩ := h
  have hle : c.requestsUnder p.token ≤ n := Rests.count_le ⟨hin, hw⟩
  have ht := hs.token_eq.trans hin.token
  have htidy := hs.tidy hin.tidy
  have hle' (hv : v ≠ .fetched) : c'.requestsUnder p.token ≤ n := by
    rw [hcount, beq_eq_false_iff_ne.mpr hv]
    exact hle
  have hdone (hrun : l.inbox.isRunning = false) (hv : v ≠ .fetched) :
      p.InStep l ⟨c', n⟩ ∧ (v ≠ .fetched → l.inbox.isWaiting = false) := by
    have hrests : p.Rests l ⟨c', n⟩ := .of_not_running horderly hl ht htidy hrun (hle' hv)
    exact ⟨hrests.1, fun _ => hrests.2⟩
  cases hs with
  | answered | garbled | lost | displaced => simp [Event.isRead, Event.isRelease] at hv
  | yielded w s hs =>
    obtain ⟨rest, -, rfl⟩ := Inbox.step_eq_value.mp hs
    exact ⟨⟨horderly, hl, ht, htidy, hin.registered, fun hrun => hcount.trans (hin.owed hrun),
      fun _ => hle' (by simp)⟩, fun _ => hw⟩
  | waited =>
    exact ⟨⟨horderly, hl, ht, htidy, hin.registered, fun hrun => hcount.trans (hin.owed hrun),
      fun _ => hle' (by simp)⟩, fun _ => hw⟩
  | fetched s hs =>
    obtain ⟨-, -, hd, hc, -, rfl⟩ := Inbox.step_eq_fetch.mp hs
    have hrun : k.inbox.isRunning = true := Inbox.isRunning_iff.mpr ⟨hc, hd⟩
    have howed := hin.owed hrun
    rw [hw] at howed
    have hwaits : Inbox.isWaiting { k.inbox with fetching := true } = true :=
      Inbox.isWaiting_iff.mpr ⟨hc, hd, rfl⟩
    refine ⟨⟨horderly, hl, ht, htidy, hin.registered, fun _ => ?_, fun hrun' => ?_⟩,
      fun h => absurd rfl h⟩
    · rw [hwaits, hcount, howed]
      rfl
    · rw [show Inbox.isRunning { k.inbox with fetching := true } = true from hrun] at hrun'
      cases hrun'
  | ended s hs =>
    obtain ⟨-, -, -, rfl⟩ := Inbox.step_eq_ended.mp hs
    exact hdone rfl (by simp)
  | failed e s hs =>
    obtain ⟨-, -, rfl⟩ := Inbox.step_eq_failed.mp hs
    exact hdone rfl (by simp)
  | refused | closed | dropped => exact hdone rfl (by simp)
  | closedAgain hc => exact hdone (by simp [Inbox.isRunning, hc]) (by simp)

/-- Reading asks for more by a request that is to be answered, and by nothing else. -/
theorem requestsUnder_next? {i : CursorId} (hk : c.cursors[i]? = some k) :
    (c.next? i).2.requestsUnder k.token = c.requestsUnder k.token +
      (Event.ofRead k.inbox.step.1 (c.next? i).1 == .fetched).toNat := by
  obtain ⟨offer, s, hstep⟩ : ∃ offer s, k.inbox.step = (offer, s) := ⟨_, _, rfl⟩
  have hoffer : k.inbox.step.1 = offer := congrArg Prod.fst hstep
  rw [hoffer, next?_of_step hk hstep]
  cases offer with
  | value v | wait => rfl
  | ended | failed e => exact requestsUnder_of_written (finish_quiet _ _).written k.token
  | fetch =>
    have hsent := (continueQuery_sent (c.modifyInbox i fun _ => s) k.token).2
    dsimp only
    rcases hcontinue : (c.modifyInbox i fun _ => s).continueQuery k.token with ⟨_ | e, d⟩
    · rw [hcontinue] at hsent
      exact requestsUnder_of_continue hsent
    · rw [hcontinue, sent, List.append_nil] at hsent
      have hfinish : ((d.modifyInbox i Inbox.abandon).finish i).written = d.written :=
        (finish_quiet _ _).written
      exact requestsUnder_of_written (hfinish.trans hsent) k.token

theorem Rests.next? (h : p.Rests k ⟨c, n⟩) : ∃ l, p.InStep l ⟨(c.next? p.cursor).2, n⟩ ∧
    ((c.next? p.cursor).1 ≠ none → l.inbox.isWaiting = false) := by
  have hk : c.cursors[p.cursor]? = some k := h.1.cursor
  obtain ⟨l, hl, hs⟩ := step_next hk
  have hcount := requestsUnder_next? hk
  rw [h.1.token] at hcount
  obtain ⟨hin, hw⟩ := h.step (h.1.orderly.after (.next p.cursor)) hl hs
    (.inl (Event.isRead_ofRead _ _)) hcount
  refine ⟨l, hin, fun hsome => hw fun hv => hsome ?_⟩
  rw [← Event.result?_ofRead k.inbox.step.1 (c.next? p.cursor).1, hv]
  rfl

/-- An action that leaves the cursor and the requests under its token alone. -/
theorem Rests.congr {c' : Connection} (h : p.Rests k ⟨c, n⟩) (horderly : Orderly c')
    (hk : c'.cursors[p.cursor]? = some k) (hwritten : c'.written = c.written) :
    p.Rests k ⟨c', n⟩ := by
  obtain ⟨hin, hw⟩ := h
  have hcount := requestsUnder_of_written hwritten p.token
  exact ⟨⟨horderly, hk, hin.token, hin.tidy, hin.registered,
    fun hrun => hcount.trans (hin.owed hrun), fun hrun => hcount.symm ▸ hin.paid hrun⟩, hw⟩

/-- Waiting for the first answer is over when the server owes nothing. -/
theorem Rests.prime? (h : p.Rests k ⟨c, n⟩) : ∃ l, p.Rests l ⟨(c.prime? p.cursor).2, n⟩ ∧
    (c.prime? p.cursor).1 ≠ none := by
  have hk : c.cursors[p.cursor]? = some k := h.1.cursor
  have horderly := h.1.orderly.after (.prime p.cursor)
  have hwritten := (prime?_quiet c p.cursor).written
  obtain ⟨l, hl, hs⟩ := steps_prime hk
  rw [ownEvent?] at hs
  change Orderly (c.prime? p.cursor).2 at horderly
  rcases hprime : c.prime? p.cursor with ⟨_ | e | _, d⟩
  · exfalso
    have hnot := Cursor.prime_of_not_waiting h.2
    simp only [Connection.prime?, hk] at hprime
    split at hprime <;> simp_all
  · rw [hprime] at hs hl hwritten horderly
    obtain ⟨m, hm, rfl⟩ := hs
    have hstep := h.step horderly hl hm (.inl rfl) (requestsUnder_of_written hwritten p.token)
    exact ⟨m, ⟨hstep.1, hstep.2 (by simp)⟩, by simp⟩
  · rw [hprime] at hs hl hwritten horderly
    obtain rfl : k = l := hs
    exact ⟨k, h.congr horderly hl hwritten, by simp⟩

theorem requestsUnder_releases {a : Action} {i : CursorId} (ha : a.Releases i) (t : Token) :
    (c.after a).requestsUnder t = c.requestsUnder t := by
  rcases releases_written_or ha with h | ⟨l, -, -, -, h⟩
  · exact requestsUnder_of_written h t
  · exact requestsUnder_of_stop h t

theorem Rests.closeCursor (h : p.Rests k ⟨c, n⟩) :
    ∃ l, p.Rests l ⟨(c.closeCursor p.cursor).2, n⟩ := by
  obtain ⟨l, hl, hs⟩ := step_closeCursor h.1.cursor h.1.tidy.sound
  obtain ⟨hin, hw⟩ := h.step (h.1.orderly.after (.closeCursor p.cursor)) hl hs (.inr rfl)
    (requestsUnder_releases (.inl rfl) p.token)
  exact ⟨l, hin, hw nofun⟩

theorem Rests.dropCursor (h : p.Rests k ⟨c, n⟩) :
    ∃ l, p.Rests l ⟨c.dropCursor p.cursor, n⟩ := by
  obtain ⟨l, hl, hs⟩ := step_dropCursor h.1.cursor h.1.tidy.sound
  obtain ⟨hin, hw⟩ := h.step (h.1.orderly.after (.dropCursor p.cursor)) hl hs (.inr rfl)
    (requestsUnder_releases (.inr rfl) p.token)
  exact ⟨l, hin, hw nofun⟩

theorem Rests.collectAll (h : p.Rests k ⟨c, n⟩) (steps : Nat) (values : List Json) :
    ∃ l, p.InStep l ⟨(collectAll p.cursor steps values c).2, n⟩ := by
  induction steps generalizing c k values with
  | zero => exact ⟨k, h.1⟩
  | succ steps ih =>
    obtain ⟨l, hin, hw⟩ := h.next?
    rw [collectAll_succ]
    rcases hread : c.next? p.cursor with ⟨_ | _ | _ | v, d⟩ <;> rw [hread] at hin hw
    · exact ⟨l, hin⟩
    · exact ⟨l, hin⟩
    · exact ⟨l, hin⟩
    · exact ih ⟨hin, hw nofun⟩ (v :: values)

theorem Rests.exhaust (h : p.Rests k ⟨c, n⟩) (steps : Nat) :
    ∃ l, p.InStep l ⟨(exhaust p.cursor steps c).2, n⟩ := by
  induction steps generalizing c k with
  | zero => exact ⟨k, h.1⟩
  | succ steps ih =>
    obtain ⟨l, hin, hw⟩ := h.next?
    rw [exhaust_succ]
    rcases hread : c.next? p.cursor with ⟨_ | _ | _ | v, d⟩ <;> rw [hread] at hin hw
    · exact ⟨l, hin⟩
    · exact (Rests.dropCursor ⟨hin, hw nofun⟩).imp fun _ h => h.1
    · exact (Rests.dropCursor ⟨hin, hw nofun⟩).imp fun _ h => h.1
    · exact ih ⟨hin, hw nofun⟩

/-- Going on with a call leaves the server in step. -/
theorem Rests.advance (h : p.Rests k ⟨c, n⟩) (call : Call) :
    ∃ l, p.InStep l ⟨(c.advance p.cursor call).2, n⟩ := by
  obtain ⟨l, hin, hw⟩ := h.next?
  obtain ⟨m, hrests, -⟩ := h.prime?
  cases call with
  | next =>
    rw [advance_next]
    split <;> exact ⟨l, hin⟩
  | all values => exact h.collectAll _ values
  | one =>
    rw [advance_one]
    split
    · exact ⟨l, hin⟩
    · exact ⟨l, hin⟩
    · next first hread =>
      exact (Rests.closeCursor ⟨hin, hw (by rw [hread]; nofun)⟩).imp fun _ h => h.1
  | stream =>
    rw [advance_stream]
    split
    · exact ⟨l, hin⟩
    · exact ⟨l, hin⟩
    · next hread => exact (Rests.dropCursor ⟨hin, hw (by rw [hread]; nofun)⟩).imp fun _ h => h.1
    · exact ⟨l, hin⟩
  | run =>
    rw [advance_run]
    split
    · exact ⟨m, hrests.1⟩
    · exact hrests.dropCursor.imp fun _ h => h.1
    · exact ⟨m, hrests.1⟩
  | exec =>
    rw [advance_exec]
    split
    · exact ⟨m, hrests.1⟩
    · exact hrests.dropCursor.imp fun _ h => h.1
    · obtain ⟨_, hclosed⟩ := hrests.closeCursor
      exact hclosed.dropCursor.imp fun _ h => h.1
  | barrier => exact h.exhaust _

end Parties
end Owing
end Reql.Connection
