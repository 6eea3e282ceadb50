import Mathlib.Logic.Function.Iterate
import Reql.Proofs.Connection.Dialogue

/-! Whenever the answers come: what a consumption comes to depends on how often the server and the
caller have had a turn, and not on the order of their turns. -/
namespace Reql.Connection

/-- A consumption is over, with these outcomes, and these requests have been written. -/
structure Dialogue.Over (d : Dialogue) (outcomes : List Outcome) (written : List Query) : Prop where
  call : d.call = none
  outcomes : d.outcomes = outcomes
  written : d.connection.written = written

namespace Parties

variable {p : Parties} {g : Consumer} {d d' : Dialogue} {k : Cursor} {call : Call} {s : Scene}
  {os os' : List Outcome} {ws ws' : List Query} {turns : List Turn} {m n : Nat}

theorem after_caller_of_none (h : d.call = none) : p.after g d .caller = d := by
  rw [after, h]

theorem after_caller_of_some (h : d.call = some call) : p.after g d .caller =
    ⟨⟨(d.connection.advance p.cursor call).2, d.answered⟩,
      (d.connection.advance p.cursor call).1.elim g.again some,
      d.outcomes ++ (d.connection.advance p.cursor call).1.elim (fun o => [o]) fun _ => []⟩ := by
  rw [after, h]
  dsimp only
  generalize d.connection.advance p.cursor call = r
  rcases r with ⟨_ | _, _⟩
  · rfl
  · simp only [Sum.elim_inr, List.append_nil]

@[simp] theorem run_cons (p : Parties) (g : Consumer) (d : Dialogue) (turn : Turn)
    (turns : List Turn) : p.run g d (turn :: turns) = p.run g (p.after g d turn) turns :=
  rfl

/-- The server is in step with the cursor, whatever has become of that. -/
def Even (p : Parties) (s : Scene) : Prop :=
  ∃ k, p.InStep k s

namespace InStep

theorem after_peer (h : p.InStep k d.toScene) (hw : k.inbox.isWaiting = false) :
    p.after g d .peer = d := by
  rw [after, h.reply_eq_self hw]

theorem after_caller (h : p.InStep k d.toScene) (hw : k.inbox.isWaiting = true) :
    p.after g d .caller = d := by
  cases hcall : d.call with
  | none => exact after_caller_of_none hcall
  | some call =>
    rw [after_caller_of_some hcall, h.advance_of_waiting hw, Sum.elim_inr, Sum.elim_inr,
      List.append_nil, ← hcall]

/-- If the server owes nothing, the caller alone has a turn in a round. -/
theorem round_eq (h : p.InStep k d.toScene) (hw : k.inbox.isWaiting = false) :
    p.round g d = p.after g d .caller := by
  rw [round, h.after_peer hw]

end InStep

theorem Even.after_peer (h : p.Even d.toScene) :
    ∃ k, p.Rests k (p.after g d .peer).toScene := by
  obtain ⟨k, hk⟩ := h
  exact hk.reply

theorem Even.after (h : p.Even d.toScene) (turn : Turn) : p.Even (p.after g d turn).toScene := by
  cases turn with
  | peer => exact h.after_peer.imp fun _ hk => hk.1
  | caller =>
    obtain ⟨k, hk⟩ := h
    cases hcall : d.call with
    | none => exact ⟨k, (after_caller_of_none hcall).symm ▸ hk⟩
    | some call =>
      cases hw : k.inbox.isWaiting with
      | true => exact ⟨k, (hk.after_caller hw).symm ▸ hk⟩
      | false =>
        rw [after_caller_of_some hcall]
        exact Rests.advance ⟨hk, hw⟩ call

theorem Even.round (h : p.Even d.toScene) : p.Even (p.round g d).toScene :=
  (h.after .peer).after .caller

/-- A dialogue after so many rounds, and perhaps another turn of the server. -/
def Reaches (p : Parties) (g : Consumer) (d : Dialogue) (n : Nat) (d' : Dialogue) : Prop :=
  d' = (p.round g)^[n] d ∨ d' = p.after g ((p.round g)^[n] d) .peer

theorem Reaches.of_round (h : p.Reaches g (p.round g d) n d') : p.Reaches g d (n + 1) d' := by
  rwa [Reaches, Function.iterate_succ_apply]

/-- Turns come to rounds. In the second case the server has just had a turn. -/
theorem Even.run_cases (h : p.Even d.toScene) (turns : List Turn) :
    (∃ n, Turn.rounds false turns ≤ n ∧ p.Reaches g d n (p.run g d turns)) ∧
    ∃ n, Turn.rounds true turns ≤ n ∧ p.Reaches g d n (p.run g (p.after g d .peer) turns) := by
  induction turns generalizing d with
  | nil => exact ⟨⟨0, Nat.le_refl 0, .inl rfl⟩, 0, Nat.le_refl 0, .inr rfl⟩
  | cons turn turns ih =>
    cases turn with
    | peer =>
      obtain ⟨k, hk⟩ := h
      refine ⟨(ih ⟨k, hk⟩).2, ?_⟩
      have htwice : p.after g (p.after g d .peer) .peer = p.after g d .peer := by
        simp only [Parties.after]
        rw [hk.reply_reply]
      rw [run_cons, htwice]
      exact (ih ⟨k, hk⟩).2
    | caller =>
      obtain ⟨⟨n, hn, hreaches⟩, -⟩ := ih (h.round (g := g))
      refine ⟨?_, n + 1, Nat.succ_le_succ hn, hreaches.of_round⟩
      obtain ⟨k, hk⟩ := h
      rw [run_cons]
      cases hw : k.inbox.isWaiting with
      | true =>
        rw [hk.after_caller hw]
        exact (ih ⟨k, hk⟩).1
      | false =>
        rw [← hk.round_eq hw]
        exact ⟨n + 1, Nat.le_succ_of_le hn, hreaches.of_round⟩

theorem Even.run_reaches (h : p.Even d.toScene) (turns : List Turn) :
    ∃ n, Turn.rounds false turns ≤ n ∧ p.Reaches g d n (p.run g d turns) :=
  (h.run_cases turns).1

def rounds (n : Nat) : List Turn :=
  (List.replicate n [Turn.peer, Turn.caller]).flatten

theorem rounds_rounds (n : Nat) : Turn.rounds false (rounds n) = n := by
  induction n with
  | zero => rfl
  | succ n ih =>
    rw [rounds, List.replicate_succ, List.flatten_cons]
    exact congrArg (· + 1) ih

theorem run_rounds (p : Parties) (g : Consumer) (d : Dialogue) (n : Nat) :
    p.run g d (rounds n) = (p.round g)^[n] d := by
  induction n generalizing d with
  | zero => rfl
  | succ n ih =>
    rw [Function.iterate_succ_apply, ← ih]
    rfl

/-! ### The end of a consumption -/

/-- A turn of the server is of no consequence for what the caller has got and written. -/
theorem over_after_peer : (p.after g d .peer).Over os ws ↔ d.Over os ws := by
  have hwritten : (p.after g d .peer).connection.written = d.connection.written :=
    p.reply_written d.toScene
  constructor <;> rintro ⟨hcall, houtcomes, hws⟩
  · exact ⟨hcall, houtcomes, hwritten.symm.trans hws⟩
  · exact ⟨hcall, houtcomes, hwritten.trans hws⟩

theorem Reaches.over_iff (h : p.Reaches g d n d') :
    d'.Over os ws ↔ ((p.round g)^[n] d).Over os ws := by
  rcases h with rfl | rfl
  · rfl
  · exact over_after_peer

theorem over_round (h : d.Over os ws) : (p.round g d).Over os ws := by
  have hpeer : (p.after g d .peer).Over os ws := over_after_peer.mpr h
  rw [round, after_caller_of_none hpeer.call]
  exact hpeer

theorem over_iterate (h : d.Over os ws) (n : Nat) : ((p.round g)^[n] d).Over os ws := by
  induction n with
  | zero => exact h
  | succ n ih =>
    rw [Function.iterate_succ_apply']
    exact over_round ih

theorem over_of_le (h : ((p.round g)^[m] d).Over os ws) (hle : m ≤ n) :
    ((p.round g)^[n] d).Over os ws := by
  obtain ⟨r, rfl⟩ := Nat.exists_eq_add_of_le hle
  rw [Nat.add_comm, Function.iterate_add_apply]
  exact over_iterate h r

/-- What is over stays so. -/
theorem over_run (h : d.Over os ws) (turns : List Turn) : (p.run g d turns).Over os ws := by
  induction turns generalizing d with
  | nil => exact h
  | cons turn turns ih =>
    cases turn with
    | peer => exact ih (over_after_peer.mpr h)
    | caller => exact ih (by rwa [after_caller_of_none h.call])

theorem settles_of_over (h : d.Over os ws) : p.Settles g d os' ws' ↔ os' = os ∧ ws' = ws := by
  constructor
  · rintro ⟨-, hall⟩
    obtain ⟨houtcomes, hwritten⟩ := hall [] h.call
    exact ⟨houtcomes.symm.trans h.outcomes, hwritten.symm.trans h.written⟩
  · rintro ⟨rfl, rfl⟩
    exact ⟨⟨0, fun turns _ => (over_run h turns).call⟩,
      fun turns _ => ⟨(over_run h turns).outcomes, (over_run h turns).written⟩⟩

/-- A consumption settles if it is over after some rounds. -/
theorem Even.settles_iff (h : p.Even d.toScene) :
    p.Settles g d os ws ↔ ∃ n, ((p.round g)^[n] d).Over os ws := by
  constructor
  · rintro ⟨⟨n, hends⟩, hall⟩
    have hcall := hends (rounds n) (Nat.le_of_eq (rounds_rounds n).symm)
    obtain ⟨houtcomes, hwritten⟩ := hall (rounds n) hcall
    rw [run_rounds] at hcall houtcomes hwritten
    exact ⟨n, hcall, houtcomes, hwritten⟩
  · rintro ⟨n, hover⟩
    refine ⟨⟨n, fun turns hle => ?_⟩, fun turns hcall => ?_⟩
    · obtain ⟨m, hm, hreaches⟩ := h.run_reaches (g := g) turns
      exact (hreaches.over_iff.mpr (over_of_le hover (Nat.le_trans hle hm))).call
    · obtain ⟨m, -, hreaches⟩ := h.run_reaches (g := g) turns
      have hover' := hreaches.over_iff.mp ⟨hcall, rfl, rfl⟩
      have hboth := over_of_le hover' (Nat.le_max_left m n)
      have hboth' := over_of_le hover (Nat.le_max_right m n)
      exact ⟨hboth.outcomes.symm.trans hboth'.outcomes, hboth.written.symm.trans hboth'.written⟩

/-- What is written in the course of a consumption is written after some rounds. -/
theorem Even.exists_written_iff (h : p.Even d.toScene) :
    (∃ turns, (p.run g d turns).connection.written = ws) ↔
      ∃ n, ((p.round g)^[n] d).connection.written = ws := by
  constructor
  · rintro ⟨turns, hws⟩
    obtain ⟨n, -, hreaches | hreaches⟩ := h.run_reaches (g := g) turns
    · exact ⟨n, hreaches ▸ hws⟩
    · rw [hreaches] at hws
      exact ⟨n, (p.reply_written _).symm.trans hws⟩
  · rintro ⟨n, hws⟩
    exact ⟨rounds n, (p.run_rounds g d n).symm ▸ hws⟩

/-! ### A cursor to which nothing more is delivered -/

/-- What a server still sends for a cursor that is done. -/
theorem getElem?_reply (hk : s.connection.cursors[p.cursor]? = some k)
    (hr : k.registered = false) : (p.reply s).connection.cursors[p.cursor]? = some k := by
  unfold reply
  split
  · exact getElem?_handle _ _ hk hr
  · exact hk

/-- Two dialogues that their callers cannot tell apart, about a cursor that is done. -/
structure Agree (p : Parties) (d d' : Dialogue) : Prop where
  idle : ∃ k, k.Idle ∧ d.connection.cursors[p.cursor]? = some k ∧
    d'.connection.cursors[p.cursor]? = some k
  call : d.call = d'.call
  outcomes : d.outcomes = d'.outcomes
  written : d.connection.written = d'.connection.written

theorem Agree.after (h : p.Agree d d') (turn : Turn) :
    p.Agree (p.after g d turn) (p.after g d' turn) := by
  obtain ⟨⟨k, hidle, hk, hk'⟩, hcall, houtcomes, hwritten⟩ := h
  cases turn with
  | peer =>
    refine ⟨⟨k, hidle, getElem?_reply hk hidle.1, getElem?_reply hk' hidle.1⟩, hcall, houtcomes,
      ?_⟩
    exact (p.reply_written _).trans (hwritten.trans (p.reply_written _).symm)
  | caller =>
    cases hc : d.call with
    | none =>
      rw [after_caller_of_none hc, after_caller_of_none (hcall.symm.trans hc)]
      exact ⟨⟨k, hidle, hk, hk'⟩, hcall, houtcomes, hwritten⟩
    | some call =>
      rw [after_caller_of_some hc, after_caller_of_some (hcall.symm.trans hc)]
      obtain ⟨r, l, hl, hall⟩ := advance_local p.cursor hidle call
      obtain ⟨hr, hcursor, hsame⟩ := hall _ hk
      obtain ⟨hr', hcursor', hsame'⟩ := hall _ hk'
      refine ⟨⟨l, hl, hcursor, hcursor'⟩, ?_, ?_, hsame.trans (hwritten.trans hsame'.symm)⟩
      · simp only [hr, hr']
      · simp only [hr, hr', houtcomes]

theorem Agree.run (h : p.Agree d d') (turns : List Turn) :
    p.Agree (p.run g d turns) (p.run g d' turns) := by
  induction turns generalizing d d' with
  | nil => exact h
  | cons turn turns ih => exact ih (h.after turn)

/-- Two scenes that no consumer of the cursor can tell apart. -/
def Indistinct (p : Parties) (s s' : Scene) : Prop :=
  ∀ g turns, (p.run g (s.start g) turns).call = (p.run g (s'.start g) turns).call ∧
    (p.run g (s.start g) turns).outcomes = (p.run g (s'.start g) turns).outcomes ∧
    (p.run g (s.start g) turns).connection.written = (p.run g (s'.start g) turns).connection.written

theorem Indistinct.settles_iff {s' : Scene} (h : p.Indistinct s s') :
    p.Settles g (s.start g) os ws ↔ p.Settles g (s'.start g) os ws := by
  simp only [Settles, (h g _).1, (h g _).2.1, (h g _).2.2]

theorem Indistinct.exists_written_iff {s' : Scene} (h : p.Indistinct s s') :
    (∃ turns, (p.run g (s.start g) turns).connection.written = ws) ↔
      ∃ turns, (p.run g (s'.start g) turns).connection.written = ws := by
  simp only [(h g _).2.2]

/-- If the server owes an answer exactly when one is on its way to a cursor that is to be answered,
it may be taken to be in step: for a cursor that is done, what it owes makes no difference. -/
theorem exists_even (horderly : Orderly s.connection)
    (hk : s.connection.cursors[p.cursor]? = some k) (ht : k.token = p.token) (htidy : k.Tidy)
    (howed : k.inbox.isRunning = true → k.registered = true ∧
      s.connection.requestsUnder p.token = s.answered + k.inbox.fetching.toNat) :
    ∃ n, p.Even ⟨s.connection, n⟩ ∧ p.Indistinct s ⟨s.connection, n⟩ := by
  cases hrun : k.inbox.isRunning with
  | true =>
    obtain ⟨hr, hcount⟩ := howed hrun
    rw [← Inbox.toNat_isWaiting_of_running hrun] at hcount
    refine ⟨s.answered, ⟨k, horderly, hk, ht, htidy, fun _ => hr, fun _ => hcount, fun h => ?_⟩,
      fun _ _ => ⟨rfl, rfl, rfl⟩⟩
    rw [hrun] at h
    cases h
  | false =>
    have hrests : p.Rests k ⟨s.connection, s.connection.requestsUnder p.token⟩ :=
      .of_not_running horderly hk ht htidy hrun (Nat.le_refl _)
    refine ⟨_, ⟨k, hrests.1⟩, fun g turns => ?_⟩
    have hidle : k.Idle := ⟨htidy.sound.not_registered hrun, hrun⟩
    have hagree : p.Agree (s.start g)
        (Scene.start ⟨s.connection, s.connection.requestsUnder p.token⟩ g) :=
      ⟨⟨k, hidle, hk, hk⟩, rfl, rfl, rfl⟩
    obtain ⟨-, hcall, houtcomes, hwritten⟩ := hagree.run turns
    exact ⟨hcall, houtcomes, hwritten⟩

end Parties
end Reql.Connection
