import Reql.Proofs.Async.Arriving
import Reql.Proofs.Async.View

/-! Queries under different tokens do not disturb each other, however their computations give way to
each other. -/
namespace Reql.Async

namespace Point

/-- Whether a section comes of a frame: its cursor is looked up, or it is brought to it. -/
def isOfFrame : Point → Bool
  | route _ | deliver .. | reject .. | deregister _ => true
  | _ => false

variable {runtime : Bool} {pick : Nat} {s : Store} {p : Point}

theorem incoming_of_isOfFrame (hp : p.isOfFrame = true) :
    p.isIncoming = true ∧ p.closes = false := by
  cases p <;> first | exact ⟨rfl, rfl⟩ | cases hp

/-- A frame closes nothing. -/
theorem exec_ofFrame (hp : p.isOfFrame = true) :
    (p.exec runtime pick s).store.conn.closed = s.conn.closed ∧
      ∀ q ∈ (p.exec runtime pick s).next, q.isOfFrame = true := by
  cases p with
  | route f =>
    simp only [exec]
    repeat' split
    all_goals simp [isOfFrame]
  | deliver | reject =>
    refine ⟨by simp [exec, Store.onInbox], ?_⟩
    exact onCursor_next (P := fun ps => ∀ q ∈ ps, q.isOfFrame = true) _ (by simp) fun _ => by simp
  | deregister => exact ⟨rfl, by simp [exec]⟩
  | _ => cases hp

end Point

namespace State

variable {s : State} {as bs : List Action} {t : Token} {i j : CursorId} {k l : Cursor}
  {settings settings' : Settings}

/-- What a cursor is answered in a run: the frames under its token are looked up in the order in
which they are reported; those that are routed while it is registered, and no others, arrive, up to
the last answer or the first payload that is none; and what arrives is taken into its inbox, which
keeps nothing of it if its owner was done with it meanwhile. -/
structure Answered (t : Token) (i : CursorId) (s : State) (as : List Action) : Prop where
  order : s.waiting t ++ as.filterMap (Action.report? t) =
    (s.lookups t as).map (·.1) ++ (s.run as).waiting t
  arrives : (s.routed t as).map (Frame.brings i) = s.arrivals i as ++ (s.run as).arriving i
  last : ∀ fs f gs, s.routed t as = fs ++ f :: gs → f.isBatch = false → gs = []
  into : ∀ bs a cs p, as = bs ++ a :: cs → (s.run bs).arrival? i a = some p →
    ((s.run bs).after a).conn.cursors[i]? =
      ((s.run bs).conn.cursors[i]?).map fun k => { k with inbox := p.into k.inbox }

/-- What a frame does not do: it does not close the connection, it leaves a cursor with another
token and its registration as they are, and if its token is not registered it does nothing. -/
structure Spared (t : Token) (i : CursorId) (s : State) : Prop where
  closed : ∀ p rest pick, s.handler = p :: rest → p.isOfFrame = true →
    (s.handle pick).conn.closed = s.conn.closed ∧
      ∃ ps, (s.handle pick).handler = ps ++ rest ∧ ∀ q ∈ ps, q.isOfFrame = true
  others : ∀ p rest pick, s.handler = p :: rest → p.isOfFrame = true → p.concerns t i = false →
    (s.handle pick).conn.cursors[i]? = s.conn.cursors[i]? ∧
      (s.handle pick).conn.isRegistered t = s.conn.isRegistered t ∧
      ∃ ps, (s.handle pick).handler = ps ++ rest ∧ ∀ q ∈ ps, q.concerns t i = false
  unknown : ∀ f rest pick, s.handler = .route f :: rest → s.conn.isRegistered f.token = false →
    s.handle pick = { s with handler := rest }

theorem sole_incoming {runtime : Bool} {pick : Nat} {p : Point} (hp : p.isIncoming = true)
    (hsole : s.store.Sole t i) : (p.exec runtime pick s.store).store.Sole t i := by
  intro l m hm
  rcases cursor_of_exec hm with ⟨m', hm', htouch⟩ | ⟨-, hadded⟩
  · rw [htouch.token_eq]
    exact hsole l m' hm'
  · rw [(Point.unnamed_of_isIncoming hp).2] at hadded
    cases hadded

theorem answered_run (hfew : as.countP (·.isQuery) < 2 ^ 64)
    (hk : ((start settings).run as).conn.cursors[i]? = some k) :
    Answered k.token i (start settings) as where
  order := waiting_run (regular_start settings) as
  arrives := arriving_run (regular_start settings) .nil (sole_of_cursor hfew hk)
  last _ _ _ h hf := routed_last (sole_of_cursor hfew hk) h hf
  into _ _ _ _ _ ha := into_of_arrival ha

theorem spared_run (hfew : as.countP (·.isQuery) < 2 ^ 64)
    (hk : ((start settings).run as).conn.cursors[i]? = some k) :
    Spared k.token i ((start settings).run as) where
  closed p rest pick hhandler hp := by
    rw [handle_of_handler hhandler]
    obtain ⟨hclosed, hnext⟩ := Point.exec_ofFrame hp
    exact ⟨hclosed, _, rfl, hnext⟩
  others p rest pick hhandler hp hc := by
    have hsole := sole_of_cursor hfew hk
    obtain ⟨hincoming, hcloses⟩ := Point.incoming_of_isOfFrame hp
    have hcursor := cursor_incoming true pick hsole hincoming hc
    have hafter : (p.exec true pick ((start settings).run as).store).store.Sole k.token i :=
      sole_incoming hincoming hsole
    rw [handle_of_handler hhandler]
    refine ⟨hcursor, ?_, _, rfl, ?_⟩
    · rw [conn, Point.isRegistered_of_sole (hcursor.trans hk) hafter,
        conn, Point.isRegistered_of_sole hk hsole]
    · exact concerns_incoming hafter hincoming hc fun h => by cases hcloses.symm.trans h
  unknown f rest pick hhandler hf := by
    rw [handle_of_handler hhandler, Point.route_next_of_not hf]
    rfl

/-- The cursor at `i`, with the token `t`, has been handed over after `as`, and the connection is
still open after `bs`. -/
structure Serves (settings : Settings) (t : Token) (i : CursorId) (as bs : List Action) : Prop where
  few : (as ++ bs).countP (·.isQuery) < 2 ^ 64
  held : ∃ k, ((start settings).run as).conn.cursors[i]? = some k ∧ k.token = t ∧ k.held = true
  stays : ((start settings).run (as ++ bs)).conn.closed = false

/-- What comes of a cursor depends on nothing but what happens to it. -/
theorem Serves.matches (h : Serves settings t i as bs) :
    (((start settings).run (as ++ bs)).view t i).Matches
      (View.empty.run settings.frameLimit ((start settings).happenings t i (as ++ bs))) := by
  obtain ⟨k, hk, rfl, hheld⟩ := h.held
  obtain ⟨k', hk', hages⟩ := ages_run hk bs
  rw [← run_append] at hk'
  refine matches_run (proper_start settings) (.refl _) (by have := h.few; omega)
    (hages.token ▸ sole_of_cursor h.few hk') h.stays fun cs ds hcs => ?_
  exact apart_along h.few hk hheld h.stays hcs

end State
end Reql.Async
