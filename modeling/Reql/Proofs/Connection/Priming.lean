import Reql.Proofs.Connection.Parting
import Reql.Proofs.Connection.Schedule
import Reql.Proofs.Cursor.Untouched

/-! Waiting for the first answer of a query before it is read changes nothing about what is read. -/
namespace Reql.Connection

open Cursor (Event Steps Untouched delivered failures primed)

namespace Consumer

def all : Consumer :=
  ⟨.all [], fun _ => none⟩

/-- Waits for the first answer, and then asks for all values. -/
def runAll : Consumer :=
  ⟨.run, fun
    | .ready => some (.all [])
    | _ => none⟩

end Consumer

open Consumer

variable {p : Parties} {g : Consumer} {d : Dialogue} {k : Cursor} {s : Scene} {c : Connection}
  {o : Outcome} {os : List Outcome} {ws : List Query} {n : Nat} {id : CursorId}

/-- A call for all values gives values or an error, or goes on as such. -/
theorem collectAll_cases (id : CursorId) (steps : Nat) (values : List Json) (c : Connection) :
    (∃ vs, (collectAll id steps values c).1 = .inl (.values vs)) ∨
      (∃ e, (collectAll id steps values c).1 = .inl (.failed e)) ∨
      ∃ vs, (collectAll id steps values c).1 = .inr (.all vs) := by
  induction steps generalizing values c with
  | zero => exact .inr (.inr ⟨values, rfl⟩)
  | succ steps ih =>
    rw [collectAll_succ]
    split
    · exact .inr (.inr ⟨values, rfl⟩)
    · exact .inr (.inl ⟨_, rfl⟩)
    · exact .inl ⟨_, rfl⟩
    · exact ih _ _

theorem advance_all_cases (c : Connection) (id : CursorId) (values : List Json) :
    (∃ vs, (c.advance id (.all values)).1 = .inl (.values vs)) ∨
      (∃ e, (c.advance id (.all values)).1 = .inl (.failed e)) ∨
      ∃ vs, (c.advance id (.all values)).1 = .inr (.all vs) :=
  collectAll_cases _ _ _ _

def primedOutcome : Inbox.Primed → Outcome ⊕ Call
  | .ready => .inl .ready
  | .failed e => .inl (.failed e)
  | .wait => .inr .run

/-- A call that waits for the first answer, by what the inbox says. -/
theorem advance_run_eq {r : Inbox.Primed} {s : Inbox} (hk : c.cursors[id]? = some k)
    (hprime : k.inbox.prime = (r, s)) : c.advance id .run = (primedOutcome r, match r with
      | .failed _ => ((c.modifyInbox id fun _ => s).finish id).dropCursor id
      | _ => c) := by
  rw [advance_run, prime?_eq hk hprime]
  cases r <;> rfl

namespace Parties

/-- When the server owes nothing, waiting for the first answer leaves all as it is; or it hands out
the error that reading would hand out first. -/
theorem Rests.advance_run (h : p.Rests k ⟨c, n⟩) :
    c.advance p.cursor .run = (.inl .ready, c) ∨
      ∃ e, ((c.advance p.cursor .run).1 = .inl (.failed e) ∧
          (c.advance p.cursor .run).2.written = c.written) ∧
        ∀ values, (c.advance p.cursor (.all values)).1 = .inl (.failed e) ∧
          (c.advance p.cursor (.all values)).2.written = c.written := by
  have hk : c.cursors[p.cursor]? = some k := h.1.cursor
  obtain ⟨r, s, hprime⟩ : ∃ r s, k.inbox.prime = (r, s) := ⟨_, _, rfl⟩
  rw [advance_run_eq hk hprime]
  cases r with
  | ready => exact .inl rfl
  | wait => exact absurd (congrArg Prod.fst hprime) (Cursor.prime_of_not_waiting h.2)
  | failed e =>
    refine .inr ⟨e, ⟨rfl, (dropped_of_prime hk hprime).1⟩, fun values => ?_⟩
    rw [Connection.advance, collectAll_succ, next?_of_step hk (prime_eq_failed hprime)]
    exact ⟨rfl, (finish_quiet _ _).written⟩

/-! ### All values, with and without waiting for the first answer -/

end Parties

def Dialogue.behind (d : Dialogue) (o : Outcome) : Dialogue :=
  { d with outcomes := o :: d.outcomes }

theorem Dialogue.over_behind : (d.behind o).Over os ws ↔ ∃ os', os = o :: os' ∧ d.Over os' ws := by
  constructor
  · rintro ⟨hcall, rfl, hwritten⟩
    exact ⟨d.outcomes, rfl, hcall, rfl, hwritten⟩
  · rintro ⟨_, rfl, hcall, rfl, hwritten⟩
    exact ⟨hcall, rfl, hwritten⟩

/-- All values are being asked for, or have been given, or the error has. -/
def Dialogue.Gathering (d : Dialogue) : Prop :=
  (∃ vs, d.call = some (.all vs) ∧ d.outcomes = []) ∨
    d.call = none ∧ ∃ o, d.outcomes = [o] ∧ ((∃ vs, o = .values vs) ∨ ∃ e, o = .failed e)

namespace Parties

theorem round_behind (h : d.Gathering) : (p.round all d).Gathering ∧
    p.round runAll (d.behind .ready) = (p.round all d).behind .ready := by
  have hpeer : p.after runAll (d.behind .ready) .peer = (p.after all d .peer).behind .ready := rfl
  have hgathers : (p.after all d .peer).Gathering := h
  rw [round, round, hpeer]
  generalize p.after all d .peer = d at hgathers
  obtain ⟨vs, hcall, houtcomes⟩ | ⟨hcall, hdone⟩ := hgathers
  · have hcall' : (d.behind .ready).call = some (.all vs) := hcall
    have hsame : (d.behind .ready).connection = d.connection := rfl
    rw [after_caller_of_some hcall, after_caller_of_some hcall', hsame, houtcomes]
    obtain ⟨ws, hr⟩ | ⟨e, hr⟩ | ⟨ws, hr⟩ := advance_all_cases d.connection p.cursor vs
    · rw [hr]
      exact ⟨.inr ⟨rfl, _, rfl, .inl ⟨ws, rfl⟩⟩, by rw [Dialogue.behind, houtcomes]; rfl⟩
    · rw [hr]
      exact ⟨.inr ⟨rfl, _, rfl, .inr ⟨e, rfl⟩⟩, by rw [Dialogue.behind, houtcomes]; rfl⟩
    · rw [hr]
      exact ⟨.inl ⟨ws, rfl, rfl⟩, by rw [Dialogue.behind, houtcomes]; rfl⟩
  · have hcall' : (d.behind .ready).call = none := hcall
    rw [after_caller_of_none hcall, after_caller_of_none hcall']
    exact ⟨.inr ⟨hcall, hdone⟩, rfl⟩

theorem iterate_behind (h : d.Gathering) (n : Nat) : ((p.round all)^[n] d).Gathering ∧
    (p.round runAll)^[n] (d.behind .ready) = ((p.round all)^[n] d).behind .ready := by
  induction n with
  | zero => exact ⟨h, rfl⟩
  | succ n ih =>
    rw [Function.iterate_succ_apply', Function.iterate_succ_apply', ih.2]
    exact round_behind ih.1

/-- After its first round, waiting has come to the same as not waiting. -/
theorem Even.primes (h : p.Even s) :
    (∀ n, (p.round runAll)^[n + 2] (s.start runAll) =
        ((p.round all)^[n + 1] (s.start all)).behind .ready) ∧
      (p.round runAll (s.start runAll)).call ≠ none ∧
      (p.round runAll (s.start runAll)).connection.written = s.connection.written ∨
    ∃ e, (p.round runAll (s.start runAll)).Over [.failed e] s.connection.written ∧
      (p.round all (s.start all)).Over [.failed e] s.connection.written := by
  obtain ⟨k, hk⟩ := h.after_peer (g := all) (d := s.start all)
  have hrests : p.Rests k (p.reply s) := hk
  have hwritten := p.reply_written s
  have hrunAll : p.round runAll (s.start runAll) =
      p.after runAll ((p.reply s).start runAll) .caller := rfl
  have hall : p.round all (s.start all) = p.after all ((p.reply s).start all) .caller := rfl
  generalize p.reply s = s₁ at hrests hwritten hrunAll hall
  obtain ⟨c, n⟩ := s₁
  rcases hrests.advance_run with hready | ⟨e, ⟨hfailed, hsame⟩, hread⟩
  · left
    have hfirst : p.round runAll (s.start runAll) = (Scene.start ⟨c, n⟩ all).behind .ready := by
      rw [hrunAll, after_caller_of_some (Scene.start_call _ _), Scene.start_connection,
        show runAll.first = .run from rfl, hready]
      rfl
    have hgathers : (Scene.start ⟨c, n⟩ all).Gathering := .inl ⟨[], rfl, rfl⟩
    have hquiet : p.round all (Scene.start ⟨c, n⟩ all) = p.round all (s.start all) :=
      (hrests.1.round_eq hrests.2).trans hall.symm
    refine ⟨fun n => ?_, ?_, ?_⟩
    · rw [Function.iterate_succ_apply, hfirst, (iterate_behind hgathers (n + 1)).2,
        Function.iterate_succ_apply, hquiet, ← Function.iterate_succ_apply]
    · rw [hfirst]
      nofun
    · rw [hfirst]
      exact hwritten
  · right
    obtain ⟨hfailed', hsame'⟩ := hread []
    refine ⟨e, ?_, ?_⟩
    · rw [hrunAll, after_caller_of_some (Scene.start_call _ _), Scene.start_connection,
        show runAll.first = .run from rfl, hfailed]
      exact ⟨rfl, rfl, hsame.trans hwritten⟩
    · rw [hall, after_caller_of_some (Scene.start_call _ _), Scene.start_connection,
        show all.first = .all [] from rfl, hfailed']
      exact ⟨rfl, rfl, hsame'.trans hwritten⟩

theorem gathering_start (s : Scene) : (s.start all).Gathering :=
  .inl ⟨[], rfl, rfl⟩

/-- Reading all values after waiting for the first answer comes to the same as reading them at
once: the same values or the same error, the same requests, and the same of them at any time. -/
structure Transparent (p : Parties) (d d' : Dialogue) : Prop where
  same : ∀ o ws, p.Settles all d [o] ws ↔
    p.Settles runAll d' [.ready, o] ws ∨ p.Settles runAll d' [o] ws ∧ ∃ e, o = .failed e
  single : ∀ os ws, p.Settles all d os ws →
    (∃ vs, os = [.values vs]) ∨ ∃ e, os = [.failed e]
  waited : ∀ os ws, p.Settles runAll d' os ws →
    (∃ vs, os = [.ready, .values vs]) ∨ (∃ e, os = [.ready, .failed e]) ∨ ∃ e, os = [.failed e]
  written : ∀ ws, (∃ turns, (p.run all d turns).connection.written = ws) ↔
    ∃ turns, (p.run runAll d' turns).connection.written = ws

theorem Even.settles_all (h : p.Even s) (hs : p.Settles all (s.start all) os ws) :
    (∃ vs, os = [.values vs]) ∨ ∃ e, os = [.failed e] := by
  obtain ⟨n, hcall, houtcomes, -⟩ := h.settles_iff.mp hs
  obtain ⟨vs, hcall', -⟩ | ⟨-, o, hone, hcases⟩ :=
    (iterate_behind (p := p) (gathering_start s) n).1
  · rw [hcall] at hcall'
    cases hcall'
  · obtain ⟨vs, rfl⟩ | ⟨e, rfl⟩ := hcases
    · exact .inl ⟨vs, houtcomes.symm.trans hone⟩
    · exact .inr ⟨e, houtcomes.symm.trans hone⟩

/-- Once the first answer is there, all values are read as they would have been without waiting for
it. -/
theorem Even.transparent_of_ready (h : p.Even s)
    (hlater : ∀ n, (p.round runAll)^[n + 2] (s.start runAll) =
      ((p.round all)^[n + 1] (s.start all)).behind .ready)
    (hcall : (p.round runAll (s.start runAll)).call ≠ none)
    (hwritten : (p.round runAll (s.start runAll)).connection.written = s.connection.written) :
    p.Transparent (s.start all) (s.start runAll) := by
  have hiff (os : List Outcome) (ws : List Query) : p.Settles runAll (s.start runAll) os ws ↔
      ∃ os', os = .ready :: os' ∧ p.Settles all (s.start all) os' ws := by
    have heven : p.Even (s.start runAll).toScene := h
    have heven' : p.Even (s.start all).toScene := h
    rw [heven.settles_iff]
    simp only [heven'.settles_iff]
    constructor
    · rintro ⟨_ | _ | n, hover⟩
      · cases hover.call
      · exact absurd hover.call hcall
      · rw [hlater] at hover
        obtain ⟨os', rfl, hover'⟩ := Dialogue.over_behind.mp hover
        exact ⟨os', rfl, n + 1, hover'⟩
    · rintro ⟨os', rfl, _ | n, hover⟩
      · cases hover.call
      · exact ⟨n + 2, (hlater n).symm ▸ Dialogue.over_behind.mpr ⟨os', rfl, hover⟩⟩
  refine ⟨fun o ws => ?_, fun os ws => h.settles_all, fun os ws hs => ?_, fun ws => ?_⟩
  · rw [hiff, hiff]
    constructor
    · exact fun hs => .inl ⟨[o], rfl, hs⟩
    · rintro (⟨os', hos, hs⟩ | ⟨⟨os', hos, -⟩, e, rfl⟩)
      · obtain rfl := (List.cons.inj hos).2
        exact hs
      · cases (List.cons.inj hos).1
  · obtain ⟨os', rfl, hs'⟩ := (hiff os ws).mp hs
    obtain ⟨vs, rfl⟩ | ⟨e, rfl⟩ := h.settles_all hs'
    · exact .inl ⟨vs, rfl⟩
    · exact .inr (.inl ⟨e, rfl⟩)
  · have heven : p.Even (s.start runAll).toScene := h
    have heven' : p.Even (s.start all).toScene := h
    rw [heven.exists_written_iff, heven'.exists_written_iff]
    constructor
    · rintro ⟨_ | n, hws⟩
      · exact ⟨0, hws⟩
      · refine ⟨n + 2, ?_⟩
        rw [hlater]
        exact hws
    · rintro ⟨_ | _ | n, hws⟩
      · exact ⟨0, hws⟩
      · exact ⟨0, hwritten.symm.trans hws⟩
      · rw [hlater] at hws
        exact ⟨n + 1, hws⟩

/-- Where both come to the same error, and nothing is written. -/
theorem transparent_of_failed {e : ClientError} {d' : Dialogue} {ws₀ : List Query}
    (hall : ∀ os ws, p.Settles all d os ws ↔ os = [.failed e] ∧ ws = ws₀)
    (hrunAll : ∀ os ws, p.Settles runAll d' os ws ↔ os = [.failed e] ∧ ws = ws₀)
    (hwritten : ∀ ws, (∃ turns, (p.run all d turns).connection.written = ws) ↔ ws = ws₀)
    (hwritten' : ∀ ws, (∃ turns, (p.run runAll d' turns).connection.written = ws) ↔ ws = ws₀) :
    p.Transparent d d' where
  same o ws := by
    rw [hall, hrunAll, hrunAll]
    constructor
    · rintro ⟨hos, rfl⟩
      obtain rfl := List.singleton_inj.mp hos
      exact .inr ⟨⟨rfl, rfl⟩, e, rfl⟩
    · rintro (⟨hos, -⟩ | ⟨hs, -⟩)
      · cases (List.cons.inj hos).1
      · exact hs
  single os ws hs := .inr ⟨e, ((hall os ws).mp hs).1⟩
  waited os ws hs := .inr (.inr ⟨e, ((hrunAll os ws).mp hs).1⟩)
  written ws := by rw [hwritten, hwritten']

/-- A consumption that is over after one round in which nothing is written. -/
theorem Even.settles_of_round {g : Consumer} (h : p.Even s)
    (hover : (p.round g (s.start g)).Over os s.connection.written) (os' : List Outcome)
    (ws : List Query) :
    p.Settles g (s.start g) os' ws ↔ os' = os ∧ ws = s.connection.written := by
  have heven : p.Even (s.start g).toScene := h
  have hlater (n : Nat) : ((p.round g)^[n + 1] (s.start g)).Over os s.connection.written := by
    rw [Function.iterate_succ_apply]
    exact over_iterate hover n
  rw [heven.settles_iff]
  constructor
  · rintro ⟨n, hover'⟩
    have hend := over_of_le hover' (Nat.le_succ n)
    exact ⟨hend.outcomes.symm.trans (hlater n).outcomes,
      hend.written.symm.trans (hlater n).written⟩
  · rintro ⟨rfl, rfl⟩
    exact ⟨1, hover⟩

theorem Even.written_of_round {g : Consumer} (h : p.Even s)
    (hover : (p.round g (s.start g)).Over os s.connection.written) (ws : List Query) :
    (∃ turns, (p.run g (s.start g) turns).connection.written = ws) ↔
      ws = s.connection.written := by
  have heven : p.Even (s.start g).toScene := h
  rw [heven.exists_written_iff]
  constructor
  · rintro ⟨_ | n, rfl⟩
    · rfl
    · rw [Function.iterate_succ_apply]
      exact (over_iterate hover n).written
  · rintro rfl
    exact ⟨0, rfl⟩

theorem Even.transparent (h : p.Even s) : p.Transparent (s.start all) (s.start runAll) := by
  obtain ⟨hlater, hcall, hwritten⟩ | ⟨e, hrunAll, hall⟩ := h.primes
  · exact h.transparent_of_ready hlater hcall hwritten
  · exact transparent_of_failed (h.settles_of_round hall) (h.settles_of_round hrunAll)
      (h.written_of_round hall) (h.written_of_round hrunAll)

theorem Indistinct.transparent {s' : Scene} (h : p.Indistinct s s')
    (ht : p.Transparent (s'.start all) (s'.start runAll)) :
    p.Transparent (s.start all) (s.start runAll) where
  same o ws := by
    rw [h.settles_iff, h.settles_iff, h.settles_iff]
    exact ht.same o ws
  single os ws hs := ht.single os ws (h.settles_iff.mp hs)
  waited os ws hs := ht.waited os ws (h.settles_iff.mp hs)
  written ws := by
    rw [h.exists_written_iff, h.exists_written_iff]
    exact ht.written ws

end Parties

/-! ### Queries -/

/-- A query is asked and consumed. If it cannot be asked, that is all. -/
def consume (c : Connection) (term : Term) (options : QueryOptions) (exclusive : Bool)
    (g : Consumer) : Dialogue :=
  match c.query term options exclusive with
  | (.error e, c') => ⟨⟨c', c.requestsUnder c.tokens.next⟩, none, [.failed e]⟩
  | (.ok _, c') => Scene.start ⟨c', c.requestsUnder c.tokens.next⟩ g

section Query

variable {term : Term} {options : QueryOptions} {exclusive : Bool} {c' : Connection}

/-- A query that has been asked has a new cursor, and one more request is to be answered. -/
theorem asked_of_query (hq : c.query term options exclusive = (.ok id, c')) :
    id = c.cursors.length ∧
      (∃ k, c'.cursors[id]? = some k ∧ k.New c.tokens.next options.isNoreply) ∧
      c'.requestsUnder c.tokens.next = c.requestsUnder c.tokens.next + 1 := by
  obtain ⟨hk, -⟩ := query_ok hq
  have ho : c.closed = false := by
    cases hc : c.closed with
    | false => rfl
    | true =>
      rw [Connection.query, if_pos hc] at hq
      cases hq
  have hcases := c.query_cases (E := fun _ => True) (O := fun _ => True) term options exclusive
    trivial ho
  rw [hq] at hcases
  obtain ⟨e, he, -⟩ | ⟨c₁, k, hr, -, -, -, hwritten, -⟩ := hcases
  · cases he
  · obtain ⟨hid, rfl⟩ := Prod.mk.inj hr
    refine ⟨Except.ok.inj hid, hk, ?_⟩
    obtain ⟨hopening, htoken⟩ := opening_of_request? (a := .query term options exclusive)
      (rfl : Action.request? c _ = some (c.startOf term options))
    rw [requestsUnder, requestsUnder]
    change c₁.written.countP _ = _
    rw [hwritten, List.countP_append]
    simp [hopening, htoken]

/-- A server is in step with a query that has been asked, if it wants an answer. -/
theorem exists_even_of_query (horderly : Orderly c)
    (hq : c.query term options exclusive = (.ok id, c')) (peer : Peer) :
    let p : Parties := ⟨peer, c.tokens.next, c.cursors.length⟩
    ∃ n, p.Even ⟨c', n⟩ ∧ p.Indistinct ⟨c', c.requestsUnder c.tokens.next⟩ ⟨c', n⟩ := by
  intro p
  obtain ⟨rfl, ⟨k, hk, hnew⟩, hcount⟩ := asked_of_query hq
  have horderly' : Orderly c' := by
    have hafter := horderly.after (.query term options exclusive)
    rwa [after, act, hq] at hafter
  refine Parties.exists_even (s := ⟨c', c.requestsUnder c.tokens.next⟩) horderly' hk hnew.token
    hnew.tidy fun hrun => ?_
  have hinbox := hnew.inbox
  have hregistered := hnew.registered
  cases hreply : options.isNoreply <;> rw [hreply] at hinbox hregistered
  · exact ⟨hregistered, by rw [hinbox]; exact hcount⟩
  · rw [hinbox] at hrun
    cases hrun

theorem consume_transparent (horderly : Orderly c) (peer : Peer) :
    Parties.Transparent ⟨peer, c.tokens.next, c.cursors.length⟩
      (c.consume term options exclusive all) (c.consume term options exclusive runAll) := by
  rcases hq : c.query term options exclusive with ⟨e | id, c'⟩
  · have hover : Dialogue.Over ⟨⟨c', c.requestsUnder c.tokens.next⟩, none, [.failed e]⟩ [.failed e]
        c'.written := ⟨rfl, rfl, rfl⟩
    have hwritten (p : Parties) (g : Consumer) (ws : List Query) : (∃ turns, (p.run g
        ⟨⟨c', c.requestsUnder c.tokens.next⟩, none, [.failed e]⟩ turns).connection.written = ws) ↔
        ws = c'.written := by
      constructor
      · rintro ⟨turns, rfl⟩
        exact (Parties.over_run hover turns).written
      · rintro rfl
        exact ⟨[], rfl⟩
    simp only [consume, hq]
    exact Parties.transparent_of_failed (fun _ _ => Parties.settles_of_over hover)
      (fun _ _ => Parties.settles_of_over hover) (hwritten _ _) (hwritten _ _)
  · simp only [consume, hq]
    obtain ⟨n, heven, hindistinct⟩ := exists_even_of_query horderly hq peer
    exact hindistinct.transparent heven.transparent

end Query

/-! ### Waiting for the first answer while others act -/

section Foreign

variable {as : List Action} {noreply : Bool} {t : Token}

/-- What happens to a cursor whose owner does nothing is the doing of others. -/
theorem foreign_of_mem_history {v : Event} (hk : c.cursors[id]? = some k) (hs : k.Sound)
    (howner : ∀ a ∈ as, a.cursor? ≠ some id) (hv : v ∈ c.history id as) : v.isForeign = true := by
  obtain ⟨as₁, a, as₂, rfl, hmem⟩ := exists_of_mem_history hv
  have ha := howner a (List.mem_append_right _ List.mem_cons_self)
  obtain ⟨l, hl, -⟩ := steps_run as₁ hk hs
  cases arises_of_mem hmem with
  | next | prime | closeCursor | dropCursor => exact absurd rfl ha
  | frame f l v hl hr ht hv harr => rw [Event.isForeign, Event.isReply, harr]; rfl
  | lost | displaced => rfl
  | asked a hi => rw [hi] at hl; cases hl

theorem untouched_run (hk : c.cursors[id]? = some k) (hnew : k.New t noreply)
    (howner : ∀ a ∈ as, a.cursor? ≠ some id) : ∃ l, (c.run as).cursors[id]? = some l ∧
      l.token = t ∧ Untouched noreply (c.history id as) l := by
  obtain ⟨l, hl, hsteps⟩ := steps_run as hk hnew.sound
  exact ⟨l, hl, hsteps.token_eq.trans hnew.token, Untouched.steps hnew hsteps fun v hv =>
    foreign_of_mem_history hk hnew.sound howner hv⟩

/-- What waiting for the first answer does in a connection `c`, after the history `h` of a cursor at
`id` with the token `t`. -/
structure Primes (c : Connection) (id : CursorId) (t : Token) (noreply : Bool) (h : List Event) :
    Prop where
  /-- With values it is over, without them it gives the error, and it waits if nothing has come. -/
  outcome : (c.advance id .run).1 = primedOutcome (primed noreply h)
  waits : (c.advance id .run).1 = .inr .run ↔ noreply = false ∧ ∀ v ∈ h, v.isReply = false
  /-- The first reply makes the cursor ready, whether it brings values or not, or it is an error. -/
  first : ∀ v, h = [v] → v.isReply = true →
    (c.advance id .run).1 = .inl (v.failure?.elim .ready .failed)
  /-- It takes nothing. -/
  kept : (∀ e, (c.advance id .run).1 ≠ .inl (.failed e)) → (c.advance id .run).2 = c
  quiet : (c.advance id .run).2.written = c.written
  /-- With an error, the query is over. -/
  ended : ∀ e, (c.advance id .run).1 = .inl (.failed e) →
    delivered h = [] ∧ (c.advance id .run).2.Over id t

theorem primes_of_untouched {h : List Event} (hk : c.cursors[id]? = some k)
    (hu : Untouched noreply h k) (hforeign : ∀ v ∈ h, v.isForeign = true) :
    Primes c id k.token noreply h := by
  obtain ⟨r, s, hprime⟩ : ∃ r s, k.inbox.prime = (r, s) := ⟨_, _, rfl⟩
  have hr : primed noreply h = r := by rw [← hu.prime, hprime]
  have hrun := advance_run_eq hk hprime
  have houtcome : (c.advance id .run).1 = primedOutcome (primed noreply h) := by rw [hrun, hr]
  have hkept (hnot : ∀ e, r ≠ .failed e) : (c.advance id .run).2 = c := by
    rw [hrun]
    cases r with
    | ready | wait => rfl
    | failed e => exact absurd rfl (hnot e)
  have hdone (e : ClientError) (he : r = .failed e) := dropped_of_prime hk (he ▸ hprime)
  refine ⟨houtcome, ?_, fun v hv hreply => ?_, fun hnot => hkept fun e he => hnot e ?_, ?_,
    fun e he => ?_⟩
  · rw [houtcome, ← Cursor.primed_eq_wait hforeign]
    cases primed noreply h <;> simp [primedOutcome]
  · rw [houtcome, hv, Cursor.primed_singleton hreply]
    cases v.failure? <;> rfl
  · rw [houtcome, hr, he]
    rfl
  · cases r with
    | ready | wait => rw [hkept nofun]
    | failed e =>
      rw [hrun]
      exact (hdone e rfl).1
  · obtain rfl : r = .failed e := by
      rw [houtcome, hr] at he
      cases r <;> cases he
      rfl
    rw [hrun]
    exact ⟨Cursor.delivered_of_primed hr, (hdone e rfl).2⟩

end Foreign

/-- Waiting for the first answer of a query is transparent. If a server answers each request once,
by whatever it likes, then all values are read as they would have been at once: the same values or
the same error, and the same requests are written. The waiting itself takes no value and writes
nothing; it is over as soon as a reply has come; and it leaves nothing behind if it gives an error,
which it does only if one comes before any value. -/
theorem priming_transparent (s : Settings) (as : List Action) (term : Term)
    (options : QueryOptions) (exclusive : Bool) (peer : Peer) :
    let c := (start s).run as
    Parties.Transparent ⟨peer, c.tokens.next, c.cursors.length⟩
        (c.consume term options exclusive all) (c.consume term options exclusive runAll) ∧
      ∀ id c' bs, c.query term options exclusive = (.ok id, c') →
        (∀ b ∈ bs, b.cursor? ≠ some id) →
        Primes (c'.run bs) id c.tokens.next options.isNoreply (c'.history id bs) := by
  intro c
  refine ⟨consume_transparent ((orderly_start s).run as) peer, fun id c' bs hq howner => ?_⟩
  obtain ⟨-, ⟨k, hk, hnew⟩, -⟩ := asked_of_query hq
  obtain ⟨l, hl, htoken, huntouched⟩ := untouched_run hk hnew howner
  rw [← htoken]
  exact primes_of_untouched hl huntouched fun v hv =>
    foreign_of_mem_history hk hnew.sound howner hv

/-- A query whose first answer is an empty batch can be read. -/
theorem priming_transparent_empty :
    let c' := ((start default).query .anything default false).2
    let bs : List Action := [.report (.frame ⟨1, Bytes.ofString "\x7b\"t\":3,\"r\":[]\x7d"⟩)]
    Parties.Transparent ⟨fun _ => .ended, 1, 0⟩
        ((start default).consume .anything default false all)
        ((start default).consume .anything default false runAll) ∧
      (start default).query .anything default false = (.ok 0, c') ∧
      (∀ b ∈ bs, b.cursor? ≠ some 0) ∧ ((c'.run bs).advance 0 .run).1 = .inl .ready ∧
      (c'.run bs).buffered 0 = 0 := by
  intro c' bs
  have hq : (start default).query .anything default false = (.ok 0, c') := rfl
  have howner : ∀ b ∈ bs, b.cursor? ≠ some 0 := by decide
  obtain ⟨htransparent, hprimes⟩ :=
    priming_transparent default [] .anything default false fun _ => .ended
  have hhistory : ∃ r, c'.history 0 bs = [.answered r] ∧ Inbox.errorOf r.body = none :=
    ⟨_, rfl, rfl⟩
  obtain ⟨r, hh, hr⟩ := hhistory
  have hfirst := (hprimes 0 c' bs hq howner).first (.answered r) hh rfl
  rw [Event.failure?, hr] at hfirst
  exact ⟨htransparent, hq, howner, hfirst, rfl⟩

end Reql.Connection
