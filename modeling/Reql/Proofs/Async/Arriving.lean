import Reql.Proofs.Async.Apart

/-! What reaches a cursor is what arrives for it while it is registered. -/
namespace Reql

def Frame.brings (i : CursorId) (f : Frame) : Async.Point :=
  match Response.decode f.token f.payload with
  | .ok r => .deliver i r
  | .error e => .reject i (.ofProtocol e)

namespace Async

namespace Point

/-- Whether a section takes something into the inbox of the cursor at `i`. -/
def arrives (i : CursorId) : Point → Bool
  | deliver id _ | reject id _ => id == i
  | _ => false

def into (b : Inbox) : Point → Inbox
  | deliver _ r => b.deliver r
  | reject _ e => b.fail e
  | _ => b

/-- Whether a section comes behind no other one but the end of a registration. -/
def comesFirst : Point → Bool
  | deliver .. | reject .. => true
  | _ => false

def isReport : Point → Bool
  | route _ | shutDown .. => true
  | _ => false

/-- Whether a section ends the registration under a token. -/
def isDeregistering : Point → Bool
  | deregister _ => true
  | _ => false

/-- The frame under a token that a section looks a cursor up for. -/
def looksUp? (t : Token) : Point → Option Frame
  | route f => if f.token = t then some f else none
  | _ => none

end Point

namespace State

/-- The frame under a token for which an action looks a cursor up, and whether there is one. -/
def lookup? (t : Token) (s : State) : Action → Option (Frame × Bool)
  | .handle _ => (s.handler.head?.bind (Point.looksUp? t)).map (·, s.conn.isRegistered t)
  | _ => none

def lookups (t : Token) (s : State) : List Action → List (Frame × Bool)
  | [] => []
  | a :: as => (s.lookup? t a).toList ++ (s.after a).lookups t as

/-- The frames under a token that are routed while it is registered. -/
def routed (t : Token) (s : State) (as : List Action) : List Frame :=
  ((s.lookups t as).filter (·.2)).map (·.1)

/-- What an action takes into the inbox of a cursor. -/
def arrival? (i : CursorId) (s : State) : Action → Option Point
  | .handle _ => s.handler.head?.filter (Point.arrives i)
  | _ => none

def arrivals (i : CursorId) (s : State) : List Action → List Point
  | [] => []
  | a :: as => (s.arrival? i a).toList ++ (s.after a).arrivals i as

/-- The frames under a token that wait to be routed. -/
def waiting (t : Token) (s : State) : List Frame :=
  s.handler.filterMap (Point.looksUp? t)

/-- What is about to be taken into the inbox of a cursor. -/
def arriving (i : CursorId) (s : State) : List Point :=
  s.handler.filter (Point.arrives i)

end State

def Action.report? (t : Token) : Action → Option Frame
  | .begin (.report (.frame f)) _ => if f.token = t then some f else none
  | _ => none

namespace Point

variable {runtime : Bool} {pick : Nat} {s : Store} {p q : Point} {t : Token} {i : CursorId}
  {k : Cursor} {f : Frame}

theorem isReport_next (runtime : Bool) (pick : Nat) (s : Store) (hp : p.isIncoming = true) :
    ∀ q ∈ (p.exec runtime pick s).next, q.isReport = false := by
  cases p with
  | deliver | reject =>
    exact onCursor_next (P := fun ps => ∀ q ∈ ps, q.isReport = false) _ (by simp) fun _ => by simp
  | shutDown cause closing =>
    have hleave : closing = .leave := by simpa [isIncoming] using hp
    simp only [exec, hleave]
    split <;> simp [isReport]
  | route f =>
    simp only [exec]
    repeat' split
    all_goals simp [isReport]
  | fail cause ids =>
    simp only [exec]
    split <;> simp [isReport]
  | deregister | drain => simp [exec, isReport]
  | _ => cases hp

theorem looksUp?_of_report (hp : p.isReport = false) : p.looksUp? t = none := by
  cases p <;> first | rfl | cases hp

theorem looksUp?_eq_some : p.looksUp? t = some f ↔ p = route f ∧ f.token = t := by
  cases p with
  | route g =>
    by_cases hg : g.token = t
    · simp only [looksUp?, if_pos hg, Option.some.injEq, route.injEq]
      exact ⟨fun h => ⟨h, h ▸ hg⟩, fun h => h.1⟩
    · simp only [looksUp?, if_neg hg, route.injEq]
      exact ⟨fun h => (by cases h), fun h => absurd (h.1 ▸ h.2) hg⟩
  | _ => exact ⟨fun h => (by cases h), fun h => by cases h.1⟩

theorem comesFirst_of_arrives (h : p.arrives i = true) : p.comesFirst = true := by
  cases p <;> first | rfl | cases h

theorem route_store (runtime : Bool) (pick : Nat) (s : Store) (f : Frame) :
    ((route f).exec runtime pick s).store = s := by
  simp only [exec]
  split <;> rfl

/-- What comes of a frame whose token is registered. -/
theorem route_next (runtime : Bool) (pick : Nat) (hk : s.conn.cursors[i]? = some k)
    (hr : k.registered = true) (hsole : s.Sole f.token i) :
    ((route f).exec runtime pick s).next =
      (if f.isBatch then [] else [deregister f.token]) ++ [f.brings i] := by
  have hfound := findIdx?_of_sole hk hsole
  rw [hr, if_pos rfl] at hfound
  simp only [exec, hfound, Store.pass_next]
  unfold Frame.isBatch Frame.brings
  split
  next r hr => split <;> simp_all
  next e he => simp_all

theorem route_next_of_not (hr : s.conn.isRegistered f.token = false) :
    (route f).exec runtime pick s = s.pass [] := by
  have hfound : (s.conn.cursors.findIdx? fun k => k.registered && k.token == f.token) = none := by
    refine List.findIdx?_eq_none_iff.mpr fun k hk => ?_
    exact List.any_eq_false.mp hr k hk |> Bool.eq_false_iff.mpr
  simp only [exec, hfound]

/-- Nothing arrives for a cursor by a section that looks nothing up. -/
theorem arrives_next (runtime : Bool) (pick : Nat) (hsole : s.Sole t i) (hp : p.isIncoming = true)
    (hnone : p.looksUp? t = none) : (p.exec runtime pick s).next.filter (arrives i) = [] := by
  refine List.filter_eq_nil_iff.mpr fun q hq => ?_
  revert q
  cases p with
  | deliver | reject =>
    exact onCursor_next (P := fun ps => ∀ q ∈ ps, ¬q.arrives i = true) _ (by simp) fun _ => by simp
  | shutDown cause closing =>
    have hleave : closing = .leave := by simpa [isIncoming] using hp
    simp only [exec, hleave]
    split <;> simp [arrives]
  | route f =>
    have hf : f.token ≠ t := fun hf => by simp [looksUp?, hf] at hnone
    simp only [exec]
    split
    next => simp
    next id hid =>
      obtain ⟨hlt, hfound, -⟩ := List.findIdx?_eq_some_iff_getElem.mp hid
      obtain ⟨-, ht⟩ := Bool.and_eq_true_iff.mp hfound
      have hid : id ≠ i := fun hi => hf
        ((beq_iff_eq.mp ht).symm.trans ((hsole id _ (List.getElem?_eq_getElem hlt)).mpr hi))
      split
      next => split <;> simp [arrives, hid]
      next => simp [arrives, hid]
  | fail cause ids =>
    simp only [exec]
    split <;> simp [arrives]
  | deregister | drain => simp [exec, arrives]
  | _ => cases hp

theorem next_of_deregistering (hp : p.isDeregistering = true) :
    (p.exec runtime pick s).next = [] := by
  cases p <;> first | rfl | cases hp

/-- What is brought to a cursor comes first, or behind the end of its registration. -/
def Lined (ps : List Point) : Prop :=
  ps.Pairwise fun p q => q.comesFirst = true → p.isDeregistering = true

theorem lined_next (runtime : Bool) (pick : Nat) (s : Store) (hp : p.isIncoming = true) :
    Lined (p.exec runtime pick s).next := by
  cases p with
  | deliver | reject => exact onCursor_next (P := Lined) _ .nil fun _ => .nil
  | shutDown cause closing =>
    have hleave : closing = .leave := by simpa [isIncoming] using hp
    simp only [exec, hleave]
    split <;> simp [Lined]
  | route f =>
    simp only [exec]
    repeat' split
    all_goals simp [Lined, isDeregistering]
  | fail cause ids =>
    simp only [exec]
    split <;> simp [Lined]
  | deregister | drain => simp [exec, Lined]
  | _ => cases hp

theorem lined_exec (runtime : Bool) (pick : Nat) (s : Store) {rest : List Point}
    (h : Lined (p :: rest)) (hp : p.isIncoming = true) :
    Lined ((p.exec runtime pick s).next ++ rest) := by
  obtain ⟨hhead, hrest⟩ := List.pairwise_cons.mp h
  refine List.pairwise_append.mpr ⟨lined_next runtime pick s hp, hrest, fun q hq r hr hfirst => ?_⟩
  rw [next_of_deregistering (hhead r hr hfirst)] at hq
  cases hq

end Point

namespace State

variable {s : State} {a : Action} {as : List Action} {t : Token} {i : CursorId} {n : Nat}
  {k : Cursor} {p : Point} {rest : List Point} {f : Frame}

theorem lined_after (h : Point.Lined s.handler) (hr : Regular s) (a : Action) :
    Point.Lined (s.after a).handler := by
  cases a with
  | begin call runtime =>
    rcases s.begin_handler runtime call with hs | ⟨event, -, hs⟩ <;> rw [after, hs]
    · exact h
    · refine List.pairwise_append.mpr ⟨h, List.pairwise_singleton _ _, fun p _ q hq hfirst => ?_⟩
      rw [List.mem_singleton.mp hq] at hfirst
      cases event <;> cases hfirst
  | step j pick =>
    rcases s.step_cases j pick with hs | ⟨τ, p, rest, -, hs⟩ <;> rw [after, hs] <;> exact h
  | handle pick =>
    rcases s.handle_cases pick with hs | ⟨p, rest, u, hhandler, rfl, hs⟩ <;> rw [after, hs]
    · exact h
    · rw [hhandler] at h
      exact Point.lined_exec true pick s.store h
        (hr.handler p (hhandler ▸ List.mem_cons_self))
  | abandon j => rwa [after, abandon_handler]
  | collect => rwa [after, collect_handler]

theorem looksUp?_incoming (event : FrameEvent) (runtime : Bool) :
    (incoming event).looksUp? t = (Action.begin (.report event) runtime).report? t := by
  cases event <;> rfl

/-- What becomes of the handler when nothing is handled. -/
theorem handler_after (ha : ∀ pick, a ≠ .handle pick) (t : Token) :
    (∃ event, (s.after a).handler = s.handler ++ [incoming event] ∧
      (incoming event).looksUp? t = a.report? t) ∨
    (s.after a).handler = s.handler ∧ a.report? t = none := by
  cases a with
  | begin call runtime =>
    cases call with
    | report event => exact .inl ⟨event, rfl, looksUp?_incoming event runtime⟩
    | _ =>
      refine .inr ⟨(s.begin_handler runtime _).resolve_right fun hreport => ?_, rfl⟩
      obtain ⟨event, hcall, -⟩ := hreport
      cases hcall
  | step j pick =>
    refine .inr ⟨?_, rfl⟩
    rcases s.step_cases j pick with hs | ⟨τ, p, rest, -, hs⟩ <;> rw [after, hs]
    rfl
  | handle pick => exact absurd rfl (ha pick)
  | abandon j => exact .inr ⟨abandon_handler s j, rfl⟩
  | collect => exact .inr ⟨collect_handler s, rfl⟩

theorem not_handled (ha : ∀ pick, a ≠ .handle pick) :
    s.lookup? t a = none ∧ s.arrival? i a = none := by
  cases a with
  | handle pick => exact absurd rfl (ha pick)
  | _ => exact ⟨rfl, rfl⟩

/-- Frames are looked up in the order in which they are reported. -/
theorem waiting_after (hr : Regular s) (a : Action) :
    s.waiting t ++ (a.report? t).toList =
      (s.lookup? t a).toList.map (·.1) ++ (s.after a).waiting t := by
  by_cases ha : ∀ pick, a ≠ .handle pick
  · rw [(not_handled (i := 0) ha).1]
    unfold waiting
    rcases handler_after (s := s) ha t with ⟨event, hs, hreport⟩ | ⟨hs, hreport⟩ <;> rw [hs]
    · rw [List.filterMap_append, ← hreport]
      cases hlooks : (incoming event).looksUp? t <;> simp [hlooks]
    · simp [hreport]
  · push Not at ha
    obtain ⟨pick, rfl⟩ := ha
    cases hhandler : s.handler with
    | nil => simp [waiting, lookup?, after, handle, hhandler, Action.report?]
    | cons p rest =>
      have hp := hr.handler p (hhandler ▸ List.mem_cons_self)
      have hnext : (p.exec true pick s.store).next.filterMap (Point.looksUp? t) = [] :=
        List.filterMap_eq_nil_iff.mpr fun q hq =>
          Point.looksUp?_of_report (Point.isReport_next true pick s.store hp q hq)
      simp only [waiting, lookup?, after, handle, hhandler, Action.report?, List.filterMap_append,
        hnext]
      cases hlooks : p.looksUp? t <;> simp [hlooks]

/-- What arrives for a cursor is what has been looked up for it. -/
theorem arriving_after (hr : Regular s) (hlined : Point.Lined s.handler)
    (hsole : s.store.Sole t i) (a : Action) :
    s.arriving i ++ (((s.lookup? t a).toList.filter (·.2)).map fun x => x.1.brings i) =
      (s.arrival? i a).toList ++ (s.after a).arriving i := by
  by_cases ha : ∀ pick, a ≠ .handle pick
  · obtain ⟨hlookup, harrival⟩ := not_handled (s := s) (t := t) (i := i) ha
    rw [hlookup, harrival]
    unfold arriving
    rcases handler_after (s := s) ha t with ⟨event, hs, -⟩ | ⟨hs, -⟩ <;> rw [hs]
    · cases event <;> simp [incoming, Point.arrives]
    · simp
  · push Not at ha
    obtain ⟨pick, rfl⟩ := ha
    cases hhandler : s.handler with
    | nil => simp [arriving, lookup?, arrival?, after, handle, hhandler]
    | cons p rest =>
      have hp := hr.handler p (hhandler ▸ List.mem_cons_self)
      have hrest : p.isReport = true → rest.filter (Point.arrives i) = [] := fun hreport => by
        rw [hhandler] at hlined
        refine List.filter_eq_nil_iff.mpr fun q hq harrives => ?_
        have hlast := (List.pairwise_cons.mp hlined).1 q hq (Point.comesFirst_of_arrives harrives)
        cases p <;> simp [Point.isReport, Point.isDeregistering] at hreport hlast
      simp only [arriving, lookup?, arrival?, after, handle, hhandler, List.filter_append]
      cases hlooks : p.looksUp? t with
      | none =>
        rw [Point.arrives_next true pick hsole hp hlooks]
        cases harrives : p.arrives i <;> simp [hlooks, harrives, Option.filter]
      | some f =>
        obtain ⟨rfl, rfl⟩ := Point.looksUp?_eq_some.mp hlooks
        have hroute : (Point.route f).arrives i = false := rfl
        rw [List.filter_cons_of_neg (by rw [hroute]; decide), hrest rfl]
        cases hreg : s.conn.isRegistered f.token with
        | false => simp [hlooks, hroute, Point.route_next_of_not hreg, Option.filter]
        | true =>
          obtain ⟨k, hk, hr⟩ := Point.registered_of_sole hsole hreg
          have hbrings : (f.brings i).arrives i = true := by
            unfold Frame.brings
            split <;> simp [Point.arrives]
          have hnot : (Point.deregister f.token).arrives i = false := rfl
          rw [Point.route_next true pick hk hr hsole]
          cases f.isBatch <;> simp [hlooks, hroute, hbrings, hnot, Option.filter]

theorem waiting_run (hr : Regular s) (as : List Action) :
    s.waiting t ++ as.filterMap (Action.report? t) =
      (s.lookups t as).map (·.1) ++ (s.run as).waiting t := by
  induction as generalizing s with
  | nil => simp [lookups]
  | cons a as ih =>
    have hreports : (a :: as).filterMap (Action.report? t) =
        (a.report? t).toList ++ as.filterMap (Action.report? t) := by
      cases h : a.report? t <;> simp [h]
    rw [hreports, ← List.append_assoc, waiting_after hr a, List.append_assoc, ih (hr.after a),
      lookups, List.map_append, List.append_assoc, run_cons]

theorem routed_cons (s : State) (t : Token) (a : Action) (as : List Action) :
    s.routed t (a :: as) =
      ((s.lookup? t a).toList.filter (·.2)).map (·.1) ++ (s.after a).routed t as := by
  simp [routed, lookups]

theorem arriving_run (hr : Regular s) (hlined : Point.Lined s.handler)
    (hsole : (s.run as).store.Sole t i) :
    s.arriving i ++ (s.routed t as).map (Frame.brings i) =
      s.arrivals i as ++ (s.run as).arriving i := by
  induction as generalizing s with
  | nil => simp [routed, lookups, arrivals]
  | cons a as ih =>
    have hs : s.store.Sole t i := sole_of_run hsole
    have hstep := arriving_after hr hlined hs a
    rw [routed_cons, List.map_append, List.map_map, ← List.append_assoc]
    refine (congrArg (· ++ _) hstep).trans ?_
    rw [List.append_assoc, ih (hr.after a) (lined_after hlined hr a) hsole, arrivals,
      List.append_assoc, run_cons]

/-- The cursor is no longer registered, or will not be when the next frame is handled. -/
def Done (t : Token) (i : CursorId) (s : State) : Prop :=
  ∃ k, s.conn.cursors[i]? = some k ∧
    (k.registered = false ∨ s.handler.head? = some (.deregister t))

theorem Done.lookup (h : Done t i s) (hsole : s.store.Sole t i) (a : Action) :
    (s.lookup? t a).toList.filter (·.2) = [] := by
  obtain ⟨k, hk, hr | hhead⟩ := h
  · have hreg := Point.isRegistered_of_sole hk hsole
    cases a with
    | handle pick =>
      have hreg : s.conn.isRegistered t = false := hreg.trans hr
      cases h : s.handler.head?.bind (Point.looksUp? t) <;> simp [lookup?, h, hreg]
    | _ => rfl
  · cases a with
    | handle pick => simp [lookup?, hhead, Point.looksUp?]
    | _ => rfl

theorem Done.after (h : Done t i s) (hsole : s.store.Sole t i) (a : Action) :
    Done t i (s.after a) := by
  obtain ⟨k, hk, hr | hhead⟩ := h
  · obtain ⟨k', hk', hages⟩ := ages_after hk a
    exact ⟨k', hk', .inl (Bool.eq_false_iff.mpr fun hr' => by
      rw [hages.registered hr'] at hr
      cases hr)⟩
  · by_cases ha : ∀ pick, a ≠ .handle pick
    · obtain ⟨k', hk', -⟩ := ages_after hk a
      refine ⟨k', hk', .inr ?_⟩
      rcases handler_after (s := s) ha t with ⟨event, hs, -⟩ | ⟨hs, -⟩ <;> rw [hs]
      · rw [List.head?_append, hhead]
        rfl
      · exact hhead
    · push Not at ha
      obtain ⟨pick, rfl⟩ := ha
      obtain ⟨rest, hhandler⟩ := List.head?_eq_some_iff.mp hhead
      have hkt : k.token = t := (hsole i k hk).mpr rfl
      refine ⟨{ k with registered := false }, ?_, .inl rfl⟩
      rw [State.after, handle_of_handler hhandler]
      change (s.conn.cursors.map (·.deregister t))[i]? = _
      rw [List.getElem?_map, hk, Option.map_some, Cursor.deregister, if_pos hkt]

/-- After a frame that brings no batch none is routed under its token. -/
theorem done_of_final (hsole : s.store.Sole t i) (ha : s.lookup? t a = some (f, true))
    (hf : f.isBatch = false) : Done t i (s.after a) := by
  cases a with
  | handle pick =>
    obtain ⟨f', hlooks, hf'⟩ := Option.map_eq_some_iff.mp ha
    obtain ⟨rfl, hreg⟩ := Prod.mk.inj hf'
    obtain ⟨p, hhead, hlooks⟩ := Option.bind_eq_some_iff.mp hlooks
    obtain ⟨rest, hhandler⟩ := List.head?_eq_some_iff.mp hhead
    obtain ⟨rfl, rfl⟩ := Point.looksUp?_eq_some.mp hlooks
    obtain ⟨k, hk, hr⟩ := Point.registered_of_sole hsole hreg
    have hnext := Point.route_next true pick hk hr hsole
    rw [hf] at hnext
    refine ⟨k, ?_, .inr ?_⟩
    · rw [after, handle_of_handler hhandler]
      have hstore := Point.route_store true pick s.store f'
      exact (congrArg (fun s' : Store => s'.conn.cursors[i]?) hstore).trans hk
    · rw [after, handle_of_handler hhandler, hnext]
      rfl
  | _ => cases ha

theorem Done.routed (h : Done t i s) (hsole : (s.run as).store.Sole t i) :
    s.routed t as = [] := by
  induction as generalizing s with
  | nil => rfl
  | cons a as ih =>
    have hs : s.store.Sole t i := sole_of_run hsole
    rw [routed_cons, h.lookup hs a, ih (h.after hs a) hsole]
    rfl

theorem routed_last (hsole : (s.run as).store.Sole t i) {fs gs : List Frame}
    (h : s.routed t as = fs ++ f :: gs) (hf : f.isBatch = false) : gs = [] := by
  induction as generalizing s fs with
  | nil => simp [State.routed, lookups] at h
  | cons a as ih =>
    have hs : s.store.Sole t i := sole_of_run hsole
    rw [routed_cons] at h
    cases hlookup : s.lookup? t a with
    | none =>
      rw [hlookup] at h
      exact ih hsole h
    | some x =>
      obtain ⟨g, registered⟩ := x
      rw [hlookup] at h
      cases registered with
      | false => exact ih hsole h
      | true =>
        cases fs with
        | nil =>
          obtain ⟨rfl, rfl⟩ := List.cons_eq_cons.mp h
          exact (done_of_final hs hlookup hf).routed hsole
        | cons g' fs => exact ih hsole (List.cons_eq_cons.mp h).2

/-- What arrives for a cursor is taken into its inbox, which may be closed. -/
theorem into_of_arrival (ha : s.arrival? i a = some p) :
    (s.after a).conn.cursors[i]? =
      (s.conn.cursors[i]?).map fun k => { k with inbox := p.into k.inbox } := by
  cases a with
  | handle pick =>
    obtain ⟨hhead, harrives⟩ := Option.filter_eq_some_iff.mp ha
    obtain ⟨rest, hhandler⟩ := List.head?_eq_some_iff.mp hhead
    have honCursor (f : Inbox → Inbox) :
        (s.store.onInbox i f fun _ => []).store.conn.cursors[i]? =
          (s.conn.cursors[i]?).map fun k => { k with inbox := f k.inbox } := by
      unfold Store.onInbox Store.onCursor
      cases hk : s.conn.cursors[i]? with
      | none =>
        change s.store.conn.cursors[i]? = none at hk
        simp [hk]
      | some k =>
        change s.store.conn.cursors[i]? = some k at hk
        simp [hk]
    rw [after, handle_of_handler hhandler]
    cases p with
    | deliver id r =>
      obtain rfl := beq_iff_eq.mp harrives
      exact honCursor _
    | reject id e =>
      obtain rfl := beq_iff_eq.mp harrives
      exact honCursor _
    | _ => cases harrives
  | _ => cases ha

end State
end Async
end Reql
