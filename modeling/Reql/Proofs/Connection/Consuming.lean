import Reql.Proofs.Connection.Drawing
import Reql.Proofs.Connection.Priming

/-! The ways of consuming a cursor agree with reading it value by value. -/
namespace Reql.Connection

open Cursor (Event)

namespace Consumer

/-- Value by value, to the end or to an error. -/
def each : Consumer :=
  ⟨.next, fun
    | .value _ => some .next
    | _ => none⟩

/-- As a stream, to its end. -/
def stream : Consumer :=
  ⟨.stream, fun
    | .value _ | .failed _ => some .stream
    | _ => none⟩

def single : Consumer :=
  ⟨.next, fun _ => none⟩

def one : Consumer :=
  ⟨.one, fun _ => none⟩

end Consumer

open Consumer

def gathered : Option ClientError → List Json → Outcome
  | none, vs => .values vs
  | some e, _ => .failed e

def lastItems : Option ClientError → List Outcome
  | none => [.ended]
  | some e => [.failed e, .ended]

namespace Parties

/-- A consumption follows the reading value by value: `st` is what it is like when some values have
been read, and `fin` what it comes to when the end or an error is read behind them. It may have a
round for each value, or read on in the same round. -/
structure Follows (p : Parties) (g : Consumer) (st : Scene → List Json → Dialogue)
    (fin : Option ClientError → List Json → List Outcome) : Prop where
  start : ∀ s, st s [] = s.start g
  going : ∀ s vs, (st s vs).call ≠ none
  written : ∀ s vs, (st s vs).connection.written = s.connection.written
  wait : ∀ s vs, p.Even s → (p.draw s).1 = none → p.round g (st s vs) = st (p.draw s).2 vs
  value : ∀ s vs v, p.Even s → (p.draw s).1 = some (.ok (some v)) →
    p.round g (st s vs) = st (p.draw s).2 (vs ++ [v]) ∨
      p.round g (st s vs) = p.round g (st (p.draw s).2 (vs ++ [v]))
  ends : ∀ s vs e, p.Even s → p.Ends s e →
    (∃ n, ((p.round g)^[n] (st s vs)).Over (fin e vs) s.connection.written) ∧
      ∀ n, ((p.round g)^[n] (st s vs)).connection.written = s.connection.written

variable {p : Parties} {g : Consumer} {d : Dialogue} {s s' : Scene} {os : List Outcome}
  {ws : List Query}
  {vs us : List Json} {e : Option ClientError} {n : Nat} {st : Scene → List Json → Dialogue}
  {fin : Option ClientError → List Json → List Outcome}

/-- The dialogue `d` is what a consumption is like when more values have been read behind `vs`, or
when rounds have followed upon the last of them. -/
def Stands (p : Parties) (g : Consumer) (st : Scene → List Json → Dialogue) (s : Scene)
    (vs : List Json) (d : Dialogue) : Prop :=
  (∃ us s', p.Draws s us s' ∧ d = st s' (vs ++ us)) ∨
    ∃ us s' e m, p.Draws s us s' ∧ p.Ends s' e ∧ d = (p.round g)^[m] (st s' (vs ++ us))

theorem Stands.wait (hw : (p.draw s).1 = none) (h : p.Stands g st (p.draw s).2 vs d) :
    p.Stands g st s vs d := by
  obtain ⟨us, s', hdraws, hd⟩ | ⟨us, s', e, m, hdraws, hends, hd⟩ := h
  · exact .inl ⟨us, s', .wait hw hdraws, hd⟩
  · exact .inr ⟨us, s', e, m, .wait hw hdraws, hends, hd⟩

theorem Stands.value {v : Json} (hv : (p.draw s).1 = some (.ok (some v)))
    (h : p.Stands g st (p.draw s).2 (vs ++ [v]) d) : p.Stands g st s vs d := by
  have hvalues (us : List Json) : vs ++ [v] ++ us = vs ++ (v :: us) := List.append_assoc vs [v] us
  obtain ⟨us, s', hdraws, hd⟩ | ⟨us, s', e, m, hdraws, hends, hd⟩ := h
  · exact .inl ⟨v :: us, s', .value hv hdraws, hvalues us ▸ hd⟩
  · exact .inr ⟨v :: us, s', e, m, .value hv hdraws, hends, hvalues us ▸ hd⟩

/-- What has been read is not buffered any more. -/
theorem buffered_draw {v : Json} (h : p.Even s) (hv : (p.draw s).1 = some (.ok (some v))) :
    (p.reply (p.draw s).2).connection.buffered p.cursor <
      (p.reply s).connection.buffered p.cursor := by
  obtain ⟨k, hk⟩ := draw_cursor h
  obtain ⟨rest, hb, hc⟩ := next?_eq_value hk hv
  have hread := getElem?_modifyInbox hk fun _ => { k.inbox with buffer := rest }
  rw [h.draw.2 (by rw [hv]; nofun), buffered_eq hk, hb]
  change Connection.buffered ((p.reply s).connection.next? p.cursor).2 p.cursor < _
  rw [hc, buffered_eq hread]
  exact Nat.lt_succ_self _

namespace Follows

theorem stands (hg : p.Follows g st fin) (h : p.Even s) (n : Nat) (vs : List Json) :
    p.Stands g st s vs ((p.round g)^[n] (st s vs)) := by
  induction n generalizing s vs with
  | zero => exact .inl ⟨[], s, .refl s, by rw [List.append_nil]; rfl⟩
  | succ n ih =>
    -- One round may read all that is buffered, of which there is less after each value.
    generalize hb : (p.reply s).connection.buffered p.cursor = b
    induction b using Nat.strongRecOn generalizing s vs with
    | ind b ihb =>
      obtain hw | ⟨v, hv⟩ | ⟨e, hends⟩ := p.draw_cases s
      · rw [Function.iterate_succ_apply, hg.wait s vs h hw]
        exact (ih h.draw.1 vs).wait hw
      · refine Stands.value hv ?_
        obtain hround | hround := hg.value s vs v h hv
        · rw [Function.iterate_succ_apply, hround]
          exact ih h.draw.1 (vs ++ [v])
        · rw [Function.iterate_succ_apply, hround, ← Function.iterate_succ_apply]
          exact ihb _ (hb ▸ buffered_draw h hv) h.draw.1 (vs ++ [v]) rfl
      · exact .inr ⟨[], s, e, n + 1, .refl s, hends, by rw [List.append_nil]⟩

/-- Where values are read, the consumption gets. -/
theorem iterate (hg : p.Follows g st fin) (h : p.Even s) (hdraws : p.Draws s us s')
    (vs : List Json) (n : Nat) :
    ∃ m, (p.round g)^[m + 1] (st s vs) = (p.round g)^[n + 1] (st s' (vs ++ us)) := by
  induction hdraws generalizing vs with
  | refl s => exact ⟨n, by rw [List.append_nil]⟩
  | @wait s s' us hw _ ih =>
    obtain ⟨m, hm⟩ := ih h.draw.1 vs
    refine ⟨m + 1, ?_⟩
    rw [Function.iterate_succ_apply, hg.wait s vs h hw, hm]
  | @value s s' v us hv _ ih =>
    obtain ⟨m, hm⟩ := ih h.draw.1 (vs ++ [v])
    rw [List.append_assoc] at hm
    obtain hround | hround := hg.value s vs v h hv
    · refine ⟨m + 1, ?_⟩
      rw [Function.iterate_succ_apply, hround, hm]
      rfl
    · refine ⟨m, ?_⟩
      rw [Function.iterate_succ_apply, hround, ← Function.iterate_succ_apply, hm]
      rfl

/-- A consumption comes to what is read. -/
theorem settles_iff (hg : p.Follows g st fin) (h : p.Even s) :
    p.Settles g (s.start g) os ws ↔ ∃ vs s' e, p.Draws s vs s' ∧ p.Ends s' e ∧ os = fin e vs ∧
      ws = s'.connection.written := by
  have heven : p.Even (s.start g).toScene := h
  rw [heven.settles_iff, ← hg.start]
  constructor
  · rintro ⟨n, hover⟩
    obtain ⟨us, s', hdraws, hd⟩ | ⟨us, s', e, m, hdraws, hends, hd⟩ := hg.stands h n []
    · rw [hd] at hover
      exact absurd hover.call (hg.going s' us)
    · obtain ⟨⟨l, hl⟩, -⟩ := hg.ends s' us e (hdraws.even h) hends
      rw [hd, List.nil_append] at hover
      have hboth := over_of_le hover (Nat.le_max_left m l)
      have hboth' := over_of_le hl (Nat.le_max_right m l)
      exact ⟨us, s', e, hdraws, hends, hboth.outcomes.symm.trans hboth'.outcomes,
        hboth.written.symm.trans hboth'.written⟩
  · rintro ⟨vs, s', e, hdraws, hends, rfl, rfl⟩
    obtain ⟨⟨n, hn⟩, -⟩ := hg.ends s' vs e (hdraws.even h) hends
    obtain ⟨m, hm⟩ := hg.iterate h hdraws [] n
    refine ⟨m + 1, ?_⟩
    rw [hm]
    exact over_of_le hn (Nat.le_succ n)

theorem exists_written (hg : p.Follows g st fin) (h : p.Even s) (hdraws : p.Draws s us s')
    (vs : List Json) :
    ∃ n, ((p.round g)^[n] (st s vs)).connection.written = s'.connection.written := by
  induction hdraws generalizing vs with
  | refl s => exact ⟨0, hg.written s vs⟩
  | @wait s s' us hw _ ih =>
    obtain ⟨n, hn⟩ := ih h.draw.1 vs
    exact ⟨n + 1, by rw [Function.iterate_succ_apply, hg.wait s vs h hw, hn]⟩
  | @value s s' v us hv _ ih =>
    obtain ⟨n, hn⟩ := ih h.draw.1 (vs ++ [v])
    obtain hround | hround := hg.value s vs v h hv
    · exact ⟨n + 1, by rw [Function.iterate_succ_apply, hround, hn]⟩
    · cases n with
      | zero =>
        refine ⟨0, ?_⟩
        rw [← hn]
        change (st s vs).connection.written = (st (p.draw s).2 (vs ++ [v])).connection.written
        rw [hg.written, hg.written, written_draw (by rw [hv]; nofun)]
      | succ n =>
        exact ⟨n + 1, by
          rw [Function.iterate_succ_apply, hround, ← Function.iterate_succ_apply, hn]⟩

/-- What is written in the course of a consumption is what is written in the course of reading. -/
theorem written_iff (hg : p.Follows g st fin) (h : p.Even s) :
    (∃ turns, (p.run g (s.start g) turns).connection.written = ws) ↔
      ∃ vs s', p.Draws s vs s' ∧ s'.connection.written = ws := by
  have heven : p.Even (s.start g).toScene := h
  rw [heven.exists_written_iff, ← hg.start]
  constructor
  · rintro ⟨n, rfl⟩
    obtain ⟨us, s', hdraws, hd⟩ | ⟨us, s', e, m, hdraws, hends, hd⟩ := hg.stands h n []
    · rw [hd]
      exact ⟨us, s', hdraws, (hg.written s' _).symm⟩
    · rw [hd]
      exact ⟨us, s', hdraws, ((hg.ends s' _ e (hdraws.even h) hends).2 m).symm⟩
  · rintro ⟨vs, s', hdraws, rfl⟩
    exact hg.exists_written h hdraws []

end Follows

/-- A consumption that is over after one more round, in which nothing is written. -/
theorem ends_of_round {d : Dialogue} (h : (p.round g d).Over os s.connection.written)
    (hd : d.connection.written = s.connection.written) :
    (∃ n, ((p.round g)^[n] d).Over os s.connection.written) ∧
      ∀ n, ((p.round g)^[n] d).connection.written = s.connection.written := by
  refine ⟨⟨1, h⟩, fun n => ?_⟩
  cases n with
  | zero => exact hd
  | succ n =>
    rw [Function.iterate_succ_apply]
    exact (over_iterate h n).written

theorem follows_each (p : Parties) :
    p.Follows each (fun s vs => ⟨s, some .next, vs.map .value⟩)
      fun e vs => vs.map .value ++ [drawn (ending e)] where
  start _ := rfl
  going _ _ := nofun
  written _ _ := rfl
  wait s vs _ hw := by rw [round_next, hw]
  value s vs v _ hv := by
    left
    rw [round_next, hv, List.map_append]
    rfl
  ends s vs e _ hends := by
    refine ends_of_round ?_ rfl
    rw [round_next, hends]
    exact ⟨by cases e <;> rfl, rfl, written_draw (by rw [hends]; nofun)⟩

theorem follows_all (p : Parties) :
    p.Follows all (fun s vs => ⟨s, some (.all vs.reverse), []⟩) fun e vs => [gathered e vs] where
  start _ := rfl
  going _ _ := nofun
  written _ _ := rfl
  wait s vs h hw := by rw [round_all h, hw]
  value s vs v h hv := by
    right
    rw [round_all h, hv, List.reverse_append]
    rfl
  ends s vs e h hends := by
    refine ends_of_round ?_ rfl
    have hwritten : (p.draw s).2.connection.written = s.connection.written :=
      written_draw (by rw [hends]; nofun)
    rw [round_all h, hends]
    cases e with
    | none => exact ⟨rfl, by rw [List.reverse_reverse]; rfl, hwritten⟩
    | some e => exact ⟨rfl, rfl, hwritten⟩

/-- The end of a stream drops its cursor, with which its owner is done. -/
theorem round_stream_ended (h : p.Even s) (hends : p.Ends s none) (os : List Outcome) :
    (p.round stream ⟨s, some .stream, os⟩).Over (os ++ [.ended]) s.connection.written := by
  obtain ⟨l, hl, hspent⟩ := hends.spent h
  rw [round_stream, hends]
  refine ⟨rfl, rfl, ?_⟩
  change ((p.draw s).2.connection.dropCursor p.cursor).written = _
  rw [dropCursor_written_of_spent hl hspent, written_draw (by rw [hends]; nofun)]

theorem follows_stream (p : Parties) :
    p.Follows stream (fun s vs => ⟨s, some .stream, vs.map .value⟩)
      fun e vs => vs.map .value ++ lastItems e where
  start _ := rfl
  going _ _ := nofun
  written _ _ := rfl
  wait s vs _ hw := by rw [round_stream, hw]
  value s vs v _ hv := by
    left
    rw [round_stream, hv, List.map_append]
    rfl
  ends s vs e h hends := by
    cases e with
    | none => exact ends_of_round (round_stream_ended h hends _) rfl
    | some e =>
      -- The error is an item, and the end comes with the next round.
      have hwritten : (p.draw s).2.connection.written = s.connection.written :=
        written_draw (by rw [hends]; nofun)
      have hround : p.round stream ⟨s, some .stream, vs.map .value⟩ =
          ⟨(p.draw s).2, some .stream, vs.map .value ++ [.failed e]⟩ := by
        rw [round_stream, hends]
        rfl
      have hover := round_stream_ended h.draw.1 (hends.again h) (vs.map .value ++ [.failed e])
      rw [hwritten, List.append_assoc] at hover
      obtain ⟨⟨n, hn⟩, hall⟩ := ends_of_round (s := s) hover hwritten
      refine ⟨⟨n + 1, ?_⟩, fun n => ?_⟩
      · rw [Function.iterate_succ_apply, hround]
        exact hn
      · cases n with
        | zero => rfl
        | succ n =>
          rw [Function.iterate_succ_apply, hround]
          exact hall n

/-! ### All values, and streams -/

/-- The items of a reading tell the values and the end. -/
theorem items_inj {e' : Option ClientError} (h : vs.map .value ++ [drawn (ending e)] =
    us.map .value ++ [drawn (ending e')]) : vs = us ∧ e = e' := by
  obtain ⟨hvalues, hend⟩ := List.append_inj' h rfl
  refine ⟨(List.map_inj_right fun v w hvw => by cases hvw; rfl).mp hvalues, ?_⟩
  cases e <;> cases e' <;> cases hend <;> rfl

/-- A consumption that follows the reading comes to what reading value by value comes to. -/
theorem Follows.settles_each (hg : p.Follows g st fin) (h : p.Even s) :
    p.Settles g (s.start g) os ws ↔ ∃ vs e, os = fin e vs ∧
      p.Settles each (s.start each) (vs.map .value ++ [drawn (ending e)]) ws := by
  simp only [hg.settles_iff h, (follows_each p).settles_iff h]
  constructor
  · rintro ⟨vs, s', e, hdraws, hends, rfl, hws⟩
    exact ⟨vs, e, rfl, vs, s', e, hdraws, hends, rfl, hws⟩
  · rintro ⟨vs, e, rfl, us, s', e', hdraws, hends, hos, hws⟩
    obtain ⟨rfl, rfl⟩ := items_inj hos
    exact ⟨vs, s', e, hdraws, hends, rfl, hws⟩

/-- The consumptions of a scene as a whole agree: reading value by value, asking for all values, and
taking the items of a stream. -/
structure Agreeing (p : Parties) (s : Scene) : Prop where
  items : ∀ os ws, p.Settles each (s.start each) os ws → ∃ vs : List Json,
    os = vs.map .value ++ [.ended] ∨ ∃ e, os = vs.map .value ++ [.failed e]
  gathers : ∀ os ws, p.Settles all (s.start all) os ws ↔
    (∃ vs, os = [.values vs] ∧
      p.Settles each (s.start each) (vs.map .value ++ [.ended]) ws) ∨
    ∃ (vs : List Json) (e : ClientError), os = [.failed e] ∧
      p.Settles each (s.start each) (vs.map .value ++ [.failed e]) ws
  streams : ∀ os ws, p.Settles stream (s.start stream) os ws ↔
    (∃ vs : List Json, os = vs.map .value ++ [.ended] ∧
      p.Settles each (s.start each) (vs.map .value ++ [.ended]) ws) ∨
    ∃ (vs : List Json) (e : ClientError), os = vs.map .value ++ [.failed e, .ended] ∧
      p.Settles each (s.start each) (vs.map .value ++ [.failed e]) ws
  /-- Also of what goes on for ever, the same is written. -/
  written : ∀ g, g = all ∨ g = stream → ∀ ws,
    (∃ turns, (p.run g (s.start g) turns).connection.written = ws) ↔
      ∃ turns, (p.run each (s.start each) turns).connection.written = ws

theorem Even.agreeing (h : p.Even s) : p.Agreeing s where
  items os ws hs := by
    obtain ⟨vs, s', e, -, -, rfl, -⟩ := ((follows_each p).settles_iff h).mp hs
    cases e with
    | none => exact ⟨vs, .inl rfl⟩
    | some e => exact ⟨vs, .inr ⟨e, rfl⟩⟩
  gathers os ws := by
    rw [(follows_all p).settles_each h]
    simp only [Option.exists, exists_or]
    rfl
  streams os ws := by
    rw [(follows_stream p).settles_each h]
    simp only [Option.exists, exists_or]
    rfl
  written g hg ws := by
    rw [(follows_each p).written_iff h]
    obtain rfl | rfl := hg
    · exact (follows_all p).written_iff h
    · exact (follows_stream p).written_iff h

theorem Indistinct.agreeing (h : p.Indistinct s s') (ha : p.Agreeing s') : p.Agreeing s where
  items os ws hs := ha.items os ws (h.settles_iff.mp hs)
  gathers os ws := by
    simp only [h.settles_iff]
    exact ha.gathers os ws
  streams os ws := by
    simp only [h.settles_iff]
    exact ha.streams os ws
  written g hg ws := by
    rw [h.exists_written_iff, h.exists_written_iff]
    exact ha.written g hg ws

/-! ### The first value -/

/-- What a call for the first value alone makes of it: `d` is where `next` gives an outcome or has
to wait, and `d'` where this call has got at the same time. It stops the query only for a value,
and only if a server would go on with it. -/
structure GivesUp (p : Parties) (d d' : Dialogue) : Prop where
  cases : d.outcomes = [] ∨ (∃ v, d.outcomes = [.value v]) ∨ d.outcomes = [.ended] ∨
    ∃ e, d.outcomes = [.failed e]
  waits : d.outcomes = [] → d' = { d with call := some .one }
  ended : d.outcomes ≠ [] → d'.call = none ∧ d'.connection.isRegistered p.token = false ∧
    ∃ l, d'.connection.cursors[p.cursor]? = some l ∧ l.inbox.closed = true
  empty : d.outcomes = [.ended] →
    d'.outcomes = [.failed .emptyResult] ∧ d'.connection.written = d.connection.written
  failed : ∀ e, d.outcomes = [.failed e] →
    d'.outcomes = [.failed e] ∧ d'.connection.written = d.connection.written
  value : ∀ v l, d.outcomes = [.value v] → d.connection.cursors[p.cursor]? = some l →
    let stops := !l.exclusive && !d.connection.closed && !l.inbox.serverDone
    (stops = true → (d.connection.stop p.token).1 = none) →
    d'.outcomes = [.value v] ∧
      d'.connection.written = d.connection.written ++ if stops then [.bare p.token .stop] else []

/-- The dialogue of the other call for the first value, while both wait. -/
def asOne (d : Dialogue) : Dialogue :=
  { d with call := some .one }

/-- As long as the first value has not come, both calls wait for it. -/
theorem after_asOne (hd : d.call = some .next) (turn : Turn) :
    (p.after single d turn).call = none ∨ (p.after single d turn).call = some .next ∧
      (p.after single d turn).outcomes = d.outcomes ∧
      p.after one (asOne d) turn = asOne (p.after single d turn) := by
  cases turn with
  | peer => exact .inr ⟨hd, rfl, rfl⟩
  | caller =>
    have hone : (asOne d).call = some .one := rfl
    have hsame : (asOne d).connection = d.connection := rfl
    rw [after_caller_of_some hd, after_caller_of_some hone, hsame, advance_next, advance_one]
    rcases (d.connection.next? p.cursor).1 with _ | _ | _ | v
    · exact .inr ⟨rfl, List.append_nil _, rfl⟩
    · exact .inl rfl
    · exact .inl rfl
    · exact .inl rfl

theorem run_asOne (hd : d.call = some .next) (turns : List Turn)
    (h : (p.run single d turns).call = some .next) :
    p.run one (asOne d) turns = asOne (p.run single d turns) ∧
      (p.run single d turns).outcomes = d.outcomes := by
  induction turns generalizing d with
  | nil => exact ⟨rfl, rfl⟩
  | cons turn turns ih =>
    rw [run_cons] at h
    rw [run_cons, run_cons]
    obtain hover | ⟨hcall, houtcomes, hone⟩ := after_asOne (p := p) hd turn
    · have hend := over_run (p := p) (g := single) ⟨hover, rfl, rfl⟩ turns
      rw [hend.call] at h
      cases h
    · rw [hone, ← houtcomes]
      exact ih hcall h

/-- Who is told the end is done with the cursor, and closing it does nothing more. -/
theorem closeCursor_of_spent {c : Connection} {id : CursorId} {l : Cursor} {t : Token}
    (hl : c.cursors[id]? = some l) (hs : l.Spent) (ht : c.isRegistered t = false) :
    (c.closeCursor id).1 = none ∧ (c.closeCursor id).2.written = c.written ∧
      (c.closeCursor id).2.isRegistered t = false ∧
      ∃ m, (c.closeCursor id).2.cursors[id]? = some m ∧ m.inbox.closed = true := by
  have hwritten : (c.closeCursor id).2.written = _ :=
    releases_written (a := .closeCursor id) hl (.inl rfl)
  have hspares : Spares (fun _ => True) (fun _ => True) c (c.closeCursor id).2 :=
    c.closeCursor_spares trivial fun _ _ => trivial
  have hsound : l.Sound := fun hr => by rw [hs.1] at hr; cases hr
  refine ⟨?_, by rw [hwritten, if_neg (by simp [Inbox.isRunning, hs.2.1])],
    hspares.isRegistered ht, closed_of_closeCursor hl hsound⟩
  simp only [closeCursor, hl, hs.2.1, if_true]

/-- The call for one value goes on as `next` does, and closes the cursor behind a value or the
end. -/
theorem after_single (hd : d.call = some .next) (hempty : d.outcomes = []) :
    p.after single d .caller = match (d.connection.next? p.cursor).1 with
      | none => ⟨⟨(d.connection.next? p.cursor).2, d.answered⟩, some .next, []⟩
      | some r => ⟨⟨(d.connection.next? p.cursor).2, d.answered⟩, none, [drawn r]⟩ := by
  rw [after_caller_of_some hd, hempty, advance_next]
  rcases (d.connection.next? p.cursor).1 with _ | _ | _ | v <;> rfl

theorem after_one (hempty : d.outcomes = []) :
    p.after one (asOne d) .caller = match (d.connection.next? p.cursor).1 with
      | none => ⟨⟨(d.connection.next? p.cursor).2, d.answered⟩, some .one, []⟩
      | some (.error e) => ⟨⟨(d.connection.next? p.cursor).2, d.answered⟩, none, [.failed e]⟩
      | some (.ok first) =>
        ⟨⟨((d.connection.next? p.cursor).2.closeCursor p.cursor).2, d.answered⟩, none,
          [((d.connection.next? p.cursor).2.closeCursor p.cursor).1.elim
            (first.elim (.failed .emptyResult) .value) .failed]⟩ := by
  have hone : (asOne d).call = some .one := rfl
  have hsame : (asOne d).connection = d.connection := rfl
  have hempty' : (asOne d).outcomes = [] := hempty
  rw [after_caller_of_some hone, hempty', hsame, advance_one]
  rcases (d.connection.next? p.cursor).1 with _ | _ | _ <;> rfl

/-- A value is given once the cursor is closed. -/
theorem givesUp_value {c : Connection} {l : Cursor} {v : Json} {n : Nat}
    (hl : c.cursors[p.cursor]? = some l) (ht : l.token = p.token) (hs : l.Sound)
    (hopen : l.inbox.closed = false) :
    p.GivesUp ⟨⟨c, n⟩, none, [.value v]⟩ ⟨⟨(c.closeCursor p.cursor).2, n⟩, none,
      [(c.closeCursor p.cursor).1.elim (.value v) .failed]⟩ := by
  have hreply := closeCursor_reply hl hopen
  have hwritten := closeCursor_written hl hopen
  have hregistered := closeCursor_isRegistered hl hopen
  rw [ht] at hreply hwritten hregistered
  refine ⟨.inr (.inl ⟨v, rfl⟩), nofun,
    fun _ => ⟨rfl, hregistered, closed_of_closeCursor hl hs⟩, nofun, nofun, ?_⟩
  intro w m hw hm stops hstop
  obtain rfl : l = m := Option.some.inj (hl.symm.trans hm)
  obtain rfl : v = w := by cases hw; rfl
  obtain ⟨hstops, hsent⟩ := c.stop_eq p.token
  have hreplied : (c.closeCursor p.cursor).1 = none ∧ (c.closeCursor p.cursor).2.written =
      c.written ++ if stops then [.bare p.token .stop] else [] := by
    rw [hreply, hwritten]
    cases he : l.exclusive <;> cases hd : l.inbox.serverDone <;> cases hc : c.closed <;>
      simp_all [stops, sent]
  dsimp only
  rw [hreplied.1]
  exact ⟨rfl, hreplied.2⟩

theorem givesUp_next (hd : d.call = some .next) (hempty : d.outcomes = []) {k : Cursor}
    (hk : d.connection.cursors[p.cursor]? = some k) (ht : k.token = p.token) (htidy : k.Tidy) :
    p.GivesUp (p.after single d .caller) (p.after one (asOne d) .caller) := by
  rw [after_single hd hempty, after_one hempty]
  obtain ⟨l, hl, hstep⟩ := step_next hk
  have hregistered := next?_isRegistered hk
  rw [ht] at hregistered
  rcases hr : (d.connection.next? p.cursor).1 with _ | e | _ | v
  · dsimp only
    exact ⟨.inl rfl, fun _ => rfl, fun h => absurd rfl h, nofun, nofun, fun _ _ h => nomatch h⟩
  · dsimp only
    have hspent := (hstep.spent (.inr ⟨e, by rw [Event.result?_ofRead, hr]⟩)).2
    refine ⟨.inr (.inr (.inr ⟨e, rfl⟩)), nofun,
      fun _ => ⟨rfl, hregistered (.inr ⟨e, hr⟩), l, hl, hspent.2.1⟩, nofun, fun e' he => ?_,
      fun _ _ h => nomatch h⟩
    cases he
    exact ⟨rfl, rfl⟩
  · rw [hr] at hstep
    have hspent := (hstep.spent (.inl rfl)).2
    obtain ⟨hreply, hwritten, hgone, hclosed⟩ :=
      closeCursor_of_spent hl hspent (hregistered (.inl hr))
    dsimp only
    rw [hreply]
    exact ⟨.inr (.inr (.inl rfl)), nofun, fun _ => ⟨rfl, hgone, hclosed⟩, fun _ => ⟨rfl, hwritten⟩,
      nofun, fun _ _ h => nomatch h⟩
  · obtain ⟨rest, hb, hc⟩ := next?_eq_value hk hr
    have hopen : l.inbox.closed = false := by
      rw [hc, getElem?_modifyInbox hk] at hl
      obtain rfl := Option.some.inj hl
      cases hclosed : k.inbox.closed with
      | false => rfl
      | true =>
        rw [htidy.closed hclosed] at hb
        cases hb
    exact givesUp_value hl (hstep.token_eq.trans ht) (hstep.sound htidy.sound) hopen

/-- Turns are runs of the connection. -/
theorem exists_run (p : Parties) (g : Consumer) (d : Dialogue) (turns : List Turn) :
    ∃ as, (p.run g d turns).connection = d.connection.run as := by
  induction turns generalizing d with
  | nil => exact ⟨[], rfl⟩
  | cons turn turns ih =>
    obtain ⟨bs, hbs⟩ : ∃ bs, (p.after g d turn).connection = d.connection.run bs := by
      cases turn with
      | peer =>
        change ∃ bs, (p.reply d.toScene).connection = _
        unfold reply
        split
        · exact ⟨[.report _], rfl⟩
        · exact ⟨[], rfl⟩
      | caller =>
        cases hcall : d.call with
        | none => exact ⟨[], by rw [after_caller_of_none hcall]; rfl⟩
        | some call =>
          obtain ⟨bs, -, hbs⟩ := d.connection.advance_eq_run p.cursor call
          exact ⟨bs, by rw [after_caller_of_some hcall]; exact hbs⟩
    obtain ⟨as, has⟩ := ih (p.after g d turn)
    exact ⟨bs ++ as, by rw [run_cons, has, hbs, Connection.run_append]⟩

end Parties

/-- The ways of consuming a cursor agree. Let a server answer each request once, whatever it
answers, and let there be one unanswered when the cursor is fetching, and none otherwise. Then
asking for all values gives the values that are read one by one if the reading comes to its end,
and the error if it comes to one; a stream has the same items, an error being the last; and the
same is written at any time, if that goes on for ever, too. The call for one value gives the first
that is read, or says that there is none, or gives the error; it leaves the cursor closed, and it
writes a request to stop only behind a value, if the cursor does not have the connection to itself,
which is open, and the server has not finished. -/
theorem consumers_agree (s : Settings) (as : List Action) (i : CursorId) (k : Cursor) (n : Nat)
    (peer : Peer) (hk : ((start s).run as).cursors[i]? = some k)
    (hserver : k.inbox.isRunning = true → k.registered = true ∧
      ((start s).run as).requestsUnder k.token = n + k.inbox.fetching.toNat) :
    let scene : Scene := ⟨(start s).run as, n⟩
    let p : Parties := ⟨peer, k.token, i⟩
    p.Agreeing scene ∧
      ∀ turns, (p.run single (scene.start single) turns).call = some .next →
        p.run one (scene.start one) turns =
            { p.run single (scene.start single) turns with call := some .one } ∧
          p.GivesUp (p.after single (p.run single (scene.start single) turns) .caller)
            (p.after one (p.run one (scene.start one) turns) .caller) := by
  intro scene p
  have horderly : Orderly scene.connection := (orderly_start s).run as
  have htidy : k.Tidy := tidy_run hk
  refine ⟨?_, fun turns hturns => ?_⟩
  · obtain ⟨m, heven, hindistinct⟩ := Parties.exists_even (p := p) horderly hk rfl htidy hserver
    exact hindistinct.agreeing heven.agreeing
  · obtain ⟨hone, hempty⟩ := Parties.run_asOne (p := p) rfl turns hturns
    have hsame : p.run one (scene.start one) turns =
        Parties.asOne (p.run single (scene.start single) turns) := hone
    obtain ⟨bs, hbs⟩ := p.exists_run single (scene.start single) turns
    obtain ⟨l, hl, hsteps⟩ := steps_run bs hk htidy.sound
    rw [hsame]
    refine ⟨rfl, Parties.givesUp_next hturns hempty ?_ hsteps.token_eq (hsteps.tidy htidy)⟩
    rw [hbs]
    exact hl

/-- The first value of a batch is taken, and the query is stopped. -/
theorem consumers_agree_batch :
    let as : List Action := [.query .anything default false]
    let scene : Scene := ⟨(start default).run as, 0⟩
    let p : Parties := ⟨fun _ => .payload (Bytes.ofString "\x7b\"t\":3,\"r\":[\"a\"]\x7d"), 1, 0⟩
    let d := p.after one (p.run one (scene.start one) [.peer]) .caller
    scene.connection.requestsUnder 1 = 1 ∧ p.Agreeing scene ∧ d.outcomes = [.value (.str "a")] ∧
      d.connection.written = scene.connection.written ++ [.bare 1 .stop] := by
  intro as scene p d
  have hk : scene.connection.cursors[0]? = some ⟨1, .anything, false, .start, true, true⟩ := rfl
  have hcount : scene.connection.requestsUnder 1 = 1 := by decide +kernel
  obtain ⟨hagree, hone⟩ := consumers_agree default as 0 _ 0
    (fun _ => .payload (Bytes.ofString "\x7b\"t\":3,\"r\":[\"a\"]\x7d")) hk fun _ => ⟨rfl, hcount⟩
  have hcall : (p.run single (scene.start single) [.peer]).call = some .next := by decide +kernel
  have hread : (p.after single (p.run single (scene.start single) [.peer]) .caller).outcomes =
      [.value (.str "a")] := by decide +kernel
  have hwritten : (p.after single (p.run single (scene.start single) [.peer]) .caller
      ).connection.written = scene.connection.written := by decide +kernel
  have hl : (p.after single (p.run single (scene.start single) [.peer]) .caller
      ).connection.cursors[0]? =
        some ⟨1, .anything, false, ⟨[], false, false, false, false, none, none⟩, true, true⟩ := by
    decide +kernel
  have hstop : ((p.after single (p.run single (scene.start single) [.peer]) .caller
      ).connection.stop 1).1 = none := by decide +kernel
  have hopen : (p.after single (p.run single (scene.start single) [.peer]) .caller
      ).connection.closed = false := by decide +kernel
  have hgives : p.GivesUp (p.after single (p.run single (scene.start single) [.peer]) .caller) d :=
    (hone [.peer] hcall).2
  obtain ⟨houtcomes, hstopped⟩ := hgives.value _ _ hread hl fun _ => hstop
  rw [hwritten, hopen] at hstopped
  exact ⟨hcount, hagree, houtcomes, hstopped⟩

end Reql.Connection
