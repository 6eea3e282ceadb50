import Reql.Proofs.Connection.Lane
import Reql.Proofs.Cursor.Registration

/-! Queries under different tokens do not disturb each other, if each call is carried out in one
piece. -/
namespace Reql.Connection

open Cursor (Event Steps arrivals)

def Action.token? (c : Connection) : Action → Option Token
  | .query .. | .noreplyWait => some c.tokens.next
  | .next id | .prime id | .closeCursor id | .dropCursor id => c.cursors[id]?.map (·.token)
  | .report (.frame f) => some f.token
  | _ => none

def Action.rename (name : CursorId → CursorId) : Action → Action
  | .next id => .next (name id)
  | .prime id => .prime (name id)
  | .closeCursor id => .closeCursor (name id)
  | .dropCursor id => .dropCursor (name id)
  | a => a

/-- The actions of a run that are about a token, in order. A cursor is named by its place among
those with the token. -/
def callsUnder (c : Connection) (t : Token) : List Action → List Action
  | [] => []
  | a :: as =>
    if a.token? c = some t then a.rename (c.rank t) :: (c.after a).callsUnder t as
    else (c.after a).callsUnder t as

def repliesUnder (c : Connection) (t : Token) : List Action → List Reply
  | [] => []
  | a :: as =>
    if a.token? c = some t then (c.act a).1 :: (c.after a).repliesUnder t as
    else (c.after a).repliesUnder t as

variable {c c₁ c₂ : Connection} {t : Token} {a a₁ a₂ : Action} {i : CursorId} {k : Cursor}

section Unfold

variable (as : List Action)

theorem callsUnder_about (ha : a.token? c = some t) :
    c.callsUnder t (a :: as) = a.rename (c.rank t) :: (c.after a).callsUnder t as :=
  if_pos ha

theorem callsUnder_other (ha : a.token? c ≠ some t) :
    c.callsUnder t (a :: as) = (c.after a).callsUnder t as :=
  if_neg ha

theorem repliesUnder_about (ha : a.token? c = some t) :
    c.repliesUnder t (a :: as) = (c.act a).1 :: (c.after a).repliesUnder t as :=
  if_pos ha

theorem repliesUnder_other (ha : a.token? c ≠ some t) :
    c.repliesUnder t (a :: as) = (c.after a).repliesUnder t as :=
  if_neg ha

end Unfold

theorem token?_of_ends (h : a.Ends c t) : a.token? c = some t := by
  cases a with
  | query | noreplyWait => exact congrArg some (Eq.symm h)
  | next | prime | closeCursor | dropCursor =>
    obtain ⟨k, hk, ht⟩ := h
    simp only [Action.token?, hk, Option.map_some, ht]
  | _ => cases h

theorem token?_of_owns (h : a.Owns c i) (hk : c.cursors[i]? = some k) :
    a.token? c = some k.token := by
  rcases h with h | ⟨f, l, hf, hl, -, ht⟩
  · cases a <;> cases h <;> simp only [Action.token?, hk, Option.map_some]
  · obtain rfl := Option.some.inj (hk.symm.trans hl)
    cases a with
    | report event =>
      cases event with
      | frame g =>
        cases hf
        exact congrArg some ht.symm
      | _ => cases hf
    | _ => cases hf

/-- What leaves the connection open and is not about a token changes nothing under it. -/
theorem Spares.alike {c' : Connection} (h : Spares (a.Ends c) (a.Owns c) c c')
    (ha : a.token? c ≠ some t) (ho : c'.closed = false) : Alike t c' c where
  lane := by
    refine Cursor.filter_congr h.length fun i k hk => ?_
    obtain ⟨k', hk', ht, -, hb⟩ := h.cursors i k hk
    refine ⟨k', hk', ht, fun hkt => ?_⟩
    cases hb fun hown => ha (hkt ▸ token?_of_owns hown hk) with
    | same => rfl
    | displaced hend => exact absurd (hkt ▸ token?_of_ends hend) ha
    | lost e hc => rw [ho] at hc; cases hc
  limit := h.limit
  database := h.database

theorem alike_after (ha : a.token? c ≠ some t) (ho : (c.after a).closed = false) :
    Alike t (c.after a) c := by
  rcases c.after_cases a with h | ⟨l, d, h⟩
  · exact h.alike ha ho
  · have hd := h.spares.alike ha h.closed
    have hl : l.token ≠ t := by
      intro hl
      obtain ⟨q, hq, -⟩ := h.written
      rw [h.new.token] at hl
      cases a with
      | query | noreplyWait => exact ha (congrArg some hl)
      | _ => cases hq
    have hlane : (c.after a).lane t = d.lane t := by
      rw [h.after, lane, addCursor, List.filter_append, lane]
      simp [hl]
    refine ⟨hlane.trans hd.lane, ?_, ?_⟩
    · rw [h.after]
      exact hd.limit
    · rw [h.after]
      exact hd.database

theorem Alike.symm (h : Alike t c₁ c₂) : Alike t c₂ c₁ :=
  ⟨h.lane.symm, h.limit.symm, h.database.symm⟩

theorem Alike.trans {c₃ : Connection} (h : Alike t c₁ c₂) (h' : Alike t c₂ c₃) :
    Alike t c₁ c₃ :=
  ⟨h.lane.trans h'.lane, h.limit.trans h'.limit, h.database.trans h'.database⟩

/-- Cursors with the token are the same if they have the same place among those with it. -/
theorem Alike.twin {i₁ i₂ : CursorId} (h : Alike t c₁ c₂)
    (h₁ : c₁.cursors[i₁]?.map (·.token) = some t) (h₂ : c₂.cursors[i₂]?.map (·.token) = some t)
    (hrank : c₁.rank t i₁ = c₂.rank t i₂) : Twin t i₁ i₂ c₁ c₂ := by
  obtain ⟨k₁, hk₁, ht₁⟩ := Option.map_eq_some_iff.mp h₁
  obtain ⟨k₂, hk₂, ht₂⟩ := Option.map_eq_some_iff.mp h₂
  have hsame : some k₁ = some k₂ := by
    rw [← getElem?_lane hk₁ ht₁, ← getElem?_lane hk₂ ht₂, h.lane, hrank]
  cases hsame
  exact ⟨h, ⟨k₁, hk₁, hk₂, ht₁⟩, hrank⟩

/-- The same action under the token gives the same in both connections. -/
theorem Alike.after (h : Alike t c₁ c₂) (ha₁ : a₁.token? c₁ = some t)
    (ha₂ : a₂.token? c₂ = some t) (heq : a₁.rename (c₁.rank t) = a₂.rename (c₂.rank t))
    (ho₁ : (c₁.after a₁).closed = false) (ho₂ : (c₂.after a₂).closed = false) :
    (c₁.act a₁).1 = (c₂.act a₂).1 ∧ Alike t (c₁.after a₁) (c₂.after a₂) := by
  cases a₁ with
  | query term options exclusive =>
    cases a₂ with
    | query =>
      cases heq
      obtain ⟨hr, hc⟩ := h.query (Option.some.inj ha₁) (Option.some.inj ha₂) ho₁ ho₂
      exact ⟨congrArg Reply.done hr, hc⟩
    | _ => cases heq
  | noreplyWait =>
    cases a₂ with
    | noreplyWait =>
      obtain ⟨hr, hc⟩ := h.noreplyWait (Option.some.inj ha₁) (Option.some.inj ha₂) ho₁ ho₂
      exact ⟨congrArg Reply.done hr, hc⟩
    | _ => cases heq
  | next id₁ =>
    cases a₂ with
    | next id₂ =>
      obtain ⟨hr, hc⟩ := (h.twin ha₁ ha₂ (Action.next.inj heq)).next? ho₁ ho₂
      exact ⟨congrArg Reply.read hr, hc⟩
    | _ => cases heq
  | prime id₁ =>
    cases a₂ with
    | prime id₂ =>
      obtain ⟨hr, hc⟩ := (h.twin ha₁ ha₂ (Action.prime.inj heq)).prime? ho₁
      exact ⟨congrArg Reply.primed hr, hc⟩
    | _ => cases heq
  | closeCursor id₁ =>
    cases a₂ with
    | closeCursor id₂ =>
      obtain ⟨hr, hc⟩ := (h.twin ha₁ ha₂ (Action.closeCursor.inj heq)).closeCursor ho₁ ho₂
      exact ⟨congrArg Reply.done hr, hc⟩
    | _ => cases heq
  | dropCursor id₁ =>
    cases a₂ with
    | dropCursor id₂ =>
      exact ⟨rfl, (h.twin ha₁ ha₂ (Action.dropCursor.inj heq)).dropCursor ho₁ ho₂⟩
    | _ => cases heq
  | report event₁ =>
    cases event₁ with
    | frame f =>
      cases a₂ with
      | report event₂ =>
        cases heq
        exact ⟨rfl, h.route f⟩
      | _ => cases heq
    | _ => cases ha₁
  | _ => cases ha₁

/-- Runs that are the same under the token give the same there. -/
theorem Alike.run (h : Alike t c₁ c₂) {as₁ as₂ : List Action}
    (ho₁ : (c₁.run as₁).closed = false) (ho₂ : (c₂.run as₂).closed = false)
    (hcalls : c₁.callsUnder t as₁ = c₂.callsUnder t as₂) :
    c₁.repliesUnder t as₁ = c₂.repliesUnder t as₂ ∧ Alike t (c₁.run as₁) (c₂.run as₂) := by
  induction as₁ generalizing c₁ c₂ as₂ with
  | nil =>
    induction as₂ generalizing c₂ with
    | nil => exact ⟨rfl, h⟩
    | cons b as₂ ih =>
      by_cases hb : b.token? c₂ = some t
      · rw [callsUnder_about _ hb] at hcalls
        cases hcalls
      · rw [callsUnder_other _ hb] at hcalls
        rw [repliesUnder_other _ hb]
        exact ih (h.trans (alike_after hb (open_of_run ho₂)).symm) ho₂ hcalls
  | cons a as₁ ih =>
    by_cases ha : a.token? c₁ = some t
    · induction as₂ generalizing c₂ with
      | nil =>
        rw [callsUnder_about _ ha] at hcalls
        cases hcalls
      | cons b as₂ ih' =>
        by_cases hb : b.token? c₂ = some t
        · rw [callsUnder_about _ ha, callsUnder_about _ hb] at hcalls
          obtain ⟨hhead, htail⟩ := List.cons.inj hcalls
          obtain ⟨hr, hc⟩ := h.after ha hb hhead (open_of_run ho₁) (open_of_run ho₂)
          obtain ⟨hrs, hcs⟩ := ih hc ho₁ ho₂ htail
          rw [repliesUnder_about _ ha, repliesUnder_about _ hb, hr, hrs]
          exact ⟨rfl, hcs⟩
        · rw [callsUnder_other _ hb] at hcalls
          rw [repliesUnder_other _ hb]
          exact ih' (h.trans (alike_after hb (open_of_run ho₂)).symm) ho₂ hcalls
    · rw [callsUnder_other _ ha] at hcalls
      rw [repliesUnder_other _ ha]
      exact ih ((alike_after ha (open_of_run ho₁)).trans h) ho₁ ho₂ hcalls

/-- The frame that an action routes to the cursor at a place. -/
def frameTo? (c : Connection) (i : CursorId) (a : Action) : Option Frame :=
  a.frame?.filter fun f => c.holder? f.token = some i

/-- The frames that a run routes to the cursor at a place. -/
def framesTo (c : Connection) (i : CursorId) : List Action → List Frame
  | [] => []
  | a :: as => (c.frameTo? i a).toList ++ (c.after a).framesTo i as

/-- Nothing but a frame arrives. -/
theorem arrivals_eventsAt_of_none (hf : a.frame? = none) : arrivals (c.eventsAt a i) = [] := by
  refine List.filter_eq_nil_iff.mpr fun v hv harr => ?_
  cases arises_of_mem hv with
  | next k v hk hv hread => cases v <;> cases harr <;> cases hread
  | frame => cases hf
  | prime | closeCursor | dropCursor | lost | displaced | asked => cases harr

theorem Orderly.arrivals_eventsAt (h : Orderly c) :
    arrivals (c.eventsAt a i) = (c.frameTo? i a).toList.map Event.ofFrame := by
  cases hf : a.frame? with
  | none => rw [arrivals_eventsAt_of_none hf, frameTo?, hf]; rfl
  | some f =>
    obtain rfl := eq_report_of_frame? hf
    have hafter : (c.after (.report (.frame f))).cursors = c.cursors.map (·.receive f) := rfl
    have hto : c.frameTo? i (.report (.frame f)) =
        if c.holder? f.token = some i then some f else none := by
      by_cases hheld : c.holder? f.token = some i <;> simp [frameTo?, Action.frame?, hheld]
    rw [hto]
    cases hk : c.cursors[i]? with
    | none =>
      have hnot : ¬c.holder? f.token = some i := by
        rw [h.holder?_eq_some]
        rintro ⟨k, hk', -⟩
        rw [hk] at hk'
        cases hk'
      have hnil : c.eventsAt (.report (.frame f)) i = [] := by
        simp only [eventsAt, hk, hafter, List.getElem?_map, Option.map_none]
      rw [if_neg hnot, hnil]
      rfl
    | some k =>
      have hevent : c.eventsAt (.report (.frame f)) i =
          (if k.registered ∧ k.token = f.token then some (Event.ofFrame f) else none).toList := by
        simp only [eventsAt, hk, hafter, List.getElem?_map, Option.map_some, event?,
          Action.cursor?, Action.frame?, reduceCtorEq, if_false]
      rw [hevent]
      by_cases hr : k.registered = true ∧ k.token = f.token
      · have hheld : c.holder? f.token = some i := h.holder?_eq_some.mpr ⟨k, hk, hr⟩
        rw [if_pos hr, if_pos hheld]
        exact List.filter_cons_of_pos (Event.isArrival_ofFrame f)
      · have hnot : ¬c.holder? f.token = some i := by
          rw [h.holder?_eq_some]
          rintro ⟨k', hk', hr'⟩
          rw [hk] at hk'
          cases hk'
          exact hr hr'
        rw [if_neg hr, if_neg hnot]
        rfl

/-- A cursor is answered by the frames routed while it waits under their token. -/
theorem Orderly.arrivals_history (h : Orderly c) (as : List Action) :
    arrivals (c.history i as) = (c.framesTo i as).map Event.ofFrame := by
  induction as generalizing c with
  | nil => rfl
  | cons a as ih =>
    rw [history, framesTo, Cursor.arrivals_append, h.arrivals_eventsAt, ih (h.after a),
      List.map_append]

/-- The last answer, or a payload that is none, is the last frame that reaches a cursor. -/
theorem arrivals_final {as : List Action} {xs ys : List Event} {v : Event}
    (hi : c.cursors[i]? = none) (hh : arrivals (c.history i as) = xs ++ v :: ys)
    (hv : v.isFinal = true) : ys = [] := by
  rcases history_of_none as hi with ⟨hnil, -⟩ | ⟨as₁, a, as₂, k, d, -, hlen, ha, hcons⟩
  · rw [hnil] at hh
    cases xs <;> cases hh
  · have hk : ((c.run as₁).after a).cursors[i]? = some k := hlen ▸ ha.getElem?_length
    obtain ⟨l, -, hs⟩ := steps_run as₂ hk ha.new.sound
    rw [hcons] at hh
    exact hs.arrivals_final hh hv

/-- A frame changes nothing under other tokens. -/
theorem lane_route {f : Frame} (ht : f.token ≠ t) : (c.route f).lane t = c.lane t := by
  unfold lane route
  rw [Cursor.filter_map (receive_token f)]
  refine (List.map_congr_left fun k hk => ?_).trans (List.map_id _)
  have hkt : k.token = t := by simpa using (List.mem_filter.mp hk).2
  rw [Cursor.receive, if_neg fun h => ht (h.2.symm.trans hkt)]
  rfl

/-- Multiplexing is transparent. In every reachable state a cursor is what its history has made of
it, and in that it is answered by exactly the frames that are routed while it waits under their
token, up to the last answer. A frame closes nothing, and concerns only the cursor that waits under
its token, if there is one. And what happens under a token in two runs that stay open depends only
on what they do under it. -/
theorem multiplexing_transparent (s : Settings) (t : Token) :
    (∀ as i,
      (∀ k, ((start s).run as).cursors[i]? = some k → ∃ t noreply h k₀, k₀.New t noreply ∧
        (start s).history i as = .asked noreply :: h ∧ Steps k₀ h k) ∧
      arrivals ((start s).history i as) = ((start s).framesTo i as).map Event.ofFrame ∧
      ∀ xs v ys, arrivals ((start s).history i as) = xs ++ v :: ys → v.isFinal = true →
        ys = []) ∧
    (∀ as f, let c := (start s).run as
      (c.route f).closed = c.closed ∧
      (f.token ≠ t → (c.route f).lane t = c.lane t ∧
        (c.route f).isRegistered t = c.isRegistered t) ∧
      (∀ i, c.holder? f.token ≠ some i → (c.route f).cursors[i]? = c.cursors[i]?) ∧
      (c.isRegistered f.token = false → c.route f = c)) ∧
    ∀ c₁ c₂ as₁ as₂, Alike t c₁ c₂ → (c₁.run as₁).closed = false → (c₂.run as₂).closed = false →
      c₁.callsUnder t as₁ = c₂.callsUnder t as₂ →
      c₁.repliesUnder t as₁ = c₂.repliesUnder t as₂ ∧ Alike t (c₁.run as₁) (c₂.run as₂) := by
  refine ⟨fun as i => ⟨fun k hk => steps_of_none (start_none s i) hk,
    (orderly_start s).arrivals_history as, fun xs v ys hh hv => arrivals_final (start_none s i) hh hv⟩,
    fun as f => ?_, fun c₁ c₂ as₁ as₂ h ho₁ ho₂ hcalls => h.run ho₁ ho₂ hcalls⟩
  · have horderly := (orderly_start s).run as
    refine ⟨rfl, fun ht => ⟨lane_route ht, ?_⟩, fun i hi => horderly.getElem?_route hi,
      route_eq_self⟩
    rw [isRegistered_eq, isRegistered_eq, lane_route ht]

/-- The same query, answered in the same way, with another one beside it that gets no answer. -/
theorem multiplexing_transparent_beside :
    let batch : Frame := ⟨1, Bytes.ofString "\x7b\"t\":3,\"r\":[\"a\"]\x7d"⟩
    let ask : Action := .query .anything default false
    let as₁ := [ask, ask, .report (.frame ⟨2, []⟩), .next 1, .report (.frame batch), .next 0]
    let as₂ := [ask, .report (.frame batch), .next 0]
    Alike 1 (start default) (start default) ∧
      ((start default).run as₁).closed = false ∧ ((start default).run as₂).closed = false ∧
      (start default).callsUnder 1 as₁ = (start default).callsUnder 1 as₂ ∧
      (start default).repliesUnder 1 as₁ = (start default).repliesUnder 1 as₂ := by
  intro batch ask as₁ as₂
  have ho₁ : ((start default).run as₁).closed = false := by decide +kernel
  have ho₂ : ((start default).run as₂).closed = false := by decide +kernel
  have hcalls : (start default).callsUnder 1 as₁ = (start default).callsUnder 1 as₂ := by
    decide +kernel
  have halike : Alike 1 (start default) (start default) := ⟨rfl, rfl, rfl⟩
  exact ⟨halike, ho₁, ho₂, hcalls,
    ((multiplexing_transparent default 1).2.2 _ _ as₁ as₂ halike ho₁ ho₂ hcalls).1⟩

end Reql.Connection
