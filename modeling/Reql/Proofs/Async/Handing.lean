import Reql.Proofs.Async.Naming

/-! A cursor is handed over to its owner once, when its query has been written. -/
namespace Reql.Async

def Purpose.hopes (t : Token) : Purpose → Nat
  | .query u _ | .noreply u _ => (u == t).toNat
  | _ => 0

/-- The query that is registered, if it is one. -/
def Purpose.query? : Purpose → Option (Token × CursorId)
  | .query t id => some (t, id)
  | _ => none

namespace Point

/-- The cursors under a token whose owners a section leads to. -/
def hopes (t : Token) : Point → Nat
  | register u _ | recheck u _ _ => (u == t).toNat
  | write _ q | await _ q | feed _ q | flush _ q | wrote none q | check _ q | lookUp _ q =>
    q.hopes t
  | _ => 0

def query? : Point → Option (Token × CursorId)
  | recheck u id _ => some (u, id)
  | write _ q | await _ q | feed _ q | flush _ q | wrote _ q | check _ q | lookUp _ q => q.query?
  | _ => none

/-- The cursor whose owner carries a section out. -/
def owner? : Point → Option CursorId
  | read id | prime id | close id | leave id | letGo id => some id
  | _ => none

variable {runtime : Bool} {pick : Nat} {s : Store} {p q : Point} {t : Token} {i : CursorId}

theorem hopes_of_isSequel (hp : p.isSequel = true) : p.hopes t = 0 := by
  cases p with
  | check u q => cases q <;> first | rfl | cases hp
  | _ => first | rfl | cases hp

theorem query?_of_isSequel (hp : p.isSequel = true) : p.query? = none := by
  cases p with
  | check u q => cases q <;> first | rfl | cases hp
  | _ => first | rfl | cases hp

theorem exec_hopes (runtime : Bool) (pick : Nat) (s : Store) (p : Point) :
    let u := p.exec runtime pick s
    (u.next.map (hopes t)).sum + (u.spawned.map (hopes t)).sum ≤
      p.hopes t + (p.takes && s.conn.tokens.next == t).toNat := by
  by_cases hon : p.isOnCursor = true
  · simp only [sum_of_isSequel (fun q => hopes_of_isSequel) hon, spawned_of_isOnCursor hon]
    exact Nat.zero_le _
  · cases p with
    | read | prime | close | leave | letGo | deliver | reject => exact absurd rfl hon
    | wrote error q =>
      cases q <;> cases error <;> first | exact absurd rfl hon | exact Nat.zero_le _
    | take r =>
      simp only [exec, TokenSource.take, Store.change_next, Store.change_spawned]
      split <;> simp [hopes, Purpose.hopes, takes]
    | _ =>
      simp only [exec, afterFault]
      repeat' split
      all_goals simp [hopes, Purpose.hopes, takes]

/-- A section goes on with the query that it is about. -/
theorem exec_query? {x : Token × CursorId} :
    ∀ q ∈ (p.exec runtime pick s).next ++ (p.exec runtime pick s).spawned, q.query? = some x →
      p.query? = some x ∨ ∃ r, p = register x.1 r ∧ x.2 = s.conn.cursors.length := by
  by_cases hon : p.isOnCursor = true
  · intro q hq hx
    rw [spawned_of_isOnCursor hon, List.append_nil] at hq
    rw [query?_of_isSequel (sequels hon q hq)] at hx
    cases hx
  · cases p with
    | read | prime | close | leave | letGo | deliver | reject => exact absurd rfl hon
    | wrote error q =>
      cases q <;> cases error <;> first | exact absurd rfl hon | simp [exec, query?]
    | register u r =>
      simp [exec, query?, Connection.register, Connection.addCursor, Connection.deregister]
      rintro rfl
      exact ⟨rfl, rfl⟩
    | _ =>
      simp only [exec, afterFault]
      repeat' split
      all_goals simp [query?, Purpose.query?]

theorem owner?_finish (k : Cursor) (r : Connection.Reply) :
    ∀ q ∈ finish k ++ [reply r], q.owner? = none := by
  unfold finish
  cases k.exclusive <;> simp [owner?]

/-- Only the owner of a cursor goes on with a call on it. -/
theorem exec_owner? :
    ∀ q ∈ (p.exec runtime pick s).next ++ (p.exec runtime pick s).spawned, q.owner? = some i →
      p.owner? = some i := by
  by_cases hon : p.isOnCursor = true
  · rw [spawned_of_isOnCursor hon, List.append_nil]
    have hnone (id : CursorId) (f : Cursor → Cursor) {g : Cursor → List Point}
        (hg : ∀ k, ∀ q ∈ g k, q.owner? = none) :
        ∀ q ∈ (s.onCursor id f g).next, q.owner? = some i → p.owner? = some i := by
      refine onCursor_next (P := fun ps => ∀ q ∈ ps, q.owner? = some i → p.owner? = some i) f
        (by simp) fun k q hq hi => ?_
      rw [hg k q hq] at hi
      cases hi
    cases p with
    | read id =>
      refine hnone id _ fun k => ?_
      rcases afterRead_cases id k with ⟨r, h⟩ | ⟨r, h⟩ | h <;> rw [h]
      · simp [owner?]
      · exact owner?_finish k r
      · simp [owner?]
    | prime id =>
      refine hnone id _ fun k => ?_
      rcases afterPrime_cases k with ⟨r, h⟩ | ⟨r, h⟩ <;> rw [h]
      · simp [owner?]
      · exact owner?_finish k r
    | close id =>
      refine hnone id _ fun k => ?_
      unfold afterClose
      cases k.inbox.closed <;> cases k.exclusive <;> cases k.inbox.serverDone <;> simp [owner?]
    | leave id =>
      refine onCursor_next (P := fun ps => ∀ q ∈ ps, q.owner? = some i → some id = some i) _
        (by simp) fun k => ?_
      unfold afterLeave
      cases k.inbox.isRunning <;> cases k.exclusive <;> simp [owner?]
    | letGo id => exact hnone id _ fun _ => by simp [owner?]
    | deliver id r | reject id e => exact hnone id _ fun _ => by simp
    | wrote error q =>
      cases q <;> cases error <;> try cases hon
      · exact hnone _ _ fun _ => by simp
      · exact hnone _ _ fun k => owner?_finish k _
    | _ => cases hon
  · cases p with
    | read | prime | close | leave | letGo | deliver | reject => exact absurd rfl hon
    | wrote error q =>
      cases q <;> cases error <;> first | exact absurd rfl hon | simp [exec, owner?]
    | _ =>
      simp only [exec, afterFault]
      repeat' split
      all_goals simp [owner?]

theorem exists_query? (hnames : p.names t = 0) (hhopes : 0 < p.hopes t) :
    ∃ id, p.query? = some (t, id) := by
  have heq {u : Token} (h : 0 < (u == t).toNat) : u = t := by
    by_contra hne
    rw [beq_eq_false_iff_ne.mpr hne] at h
    exact absurd h (Nat.lt_irrefl 0)
  have hpurpose (q : Purpose) (hnames : q.names t = 0) (hhopes : 0 < q.hopes t) :
      ∃ id, q.query? = some (t, id) := by
    cases q with
    | query u id => exact ⟨id, by rw [heq hhopes]; rfl⟩
    | noreply u r => exact absurd hnames (Nat.ne_of_gt hhopes)
    | _ => cases hhopes
  cases p with
  | register u r => exact absurd hnames (Nat.ne_of_gt hhopes)
  | recheck u id r => exact ⟨id, by rw [heq hhopes]; rfl⟩
  | write _ q | await _ q | feed _ q | flush _ q | check _ q | lookUp _ q =>
    exact hpurpose q hnames hhopes
  | wrote error q =>
    cases error with
    | none => exact hpurpose q hnames hhopes
    | some e => cases hhopes
  | _ => cases hhopes

end Point

namespace State

variable {s : State} {a : Action} {j : TaskId} {τ : Task} {p : Point} {rest : List Point}
  {t : Token} {n : Nat}

def hopes (t : Token) (s : State) : Nat :=
  s.total fun _ => Point.hopes t

/-- Nobody calls on a cursor that is not there. -/
def There (s : State) : Prop :=
  Each (fun p => ∀ i, p.owner? = some i → i < s.conn.cursors.length) s

/-- A query that is being asked has not been handed over, and nobody calls on its cursor. -/
structure Handed (s : State) : Prop where
  query : Each (fun p => ∀ x, p.query? = some x →
    ∃ k, s.conn.cursors[x.2]? = some k ∧ k.token = x.1) s
  hopes_le : ∀ t, s.hopes t ≤ 1
  held : ∀ (i : CursorId) (k : Cursor), s.conn.cursors[i]? = some k → k.held = true →
    s.hopes k.token = 0
  there : There s
  owner : ∀ (i : CursorId) (k : Cursor), s.conn.cursors[i]? = some k → 0 < s.hopes k.token →
    Each (fun p => p.owner? ≠ some i) s

/-- A query that is being asked has its token. -/
theorem Handed.named_pos (h : Handed s) (ht : 0 < s.hopes t) : 0 < s.named t := by
  obtain ⟨τ, hτ, p, hp, hpos⟩ := total_pos ht
  by_cases hnames : 0 < p.names t
  · refine Nat.lt_of_lt_of_le hnames (Nat.le_trans ?_ (Nat.le_add_left _ _))
    exact le_total (w := fun _ => Point.names t) hτ hp
  · obtain ⟨id, hx⟩ := Point.exists_query? (Nat.eq_zero_of_not_pos hnames) hpos
    obtain ⟨k, hk, hkt⟩ := h.query τ hτ p hp _ hx
    refine Nat.lt_of_lt_of_le ?_ (Nat.le_add_right _ _)
    exact List.count_pos_iff.mpr (List.mem_map.mpr ⟨k, List.mem_of_getElem? hk, hkt⟩)

def taken? (s : State) : Action → Option Token
  | .step j _ =>
    match s.next? j with
    | some (_, .take _, _) => some s.conn.tokens.next
    | _ => none
  | _ => none

theorem taken?_of_next? (hnext : s.next? j = some (τ, p, rest)) (pick : Nat) :
    s.taken? (.step j pick) = if p.takes then some s.conn.tokens.next else none := by
  simp only [taken?, hnext]
  cases p <;> rfl

theorem hopes_opening (call : Connection.Action) :
    ((opening call).map (Point.hopes t)).sum = 0 := by
  cases call <;> rfl

theorem hopes_after_le (s : State) (a : Action) (t : Token) :
    (s.after a).hopes t ≤ s.hopes t + (s.taken? a == some t).toNat := by
  cases a with
  | begin call runtime =>
    rcases s.begin_cases runtime call with h | ⟨-, h⟩ | ⟨c, rfl, -, h⟩ | ⟨reason, -, h⟩ |
      ⟨event, -, h⟩ <;> rw [after, h]
    case inr.inl =>
      simp only [hopes, total_launch, hopes_opening]
      exact Nat.le_add_right _ _
    all_goals exact Nat.le_add_right _ _
  | step j pick =>
    cases hnext : s.next? j with
    | none =>
      simp only [after, step, hnext]
      exact Nat.le_add_right _ _
    | some x =>
      obtain ⟨τ, p, rest⟩ := x
      rw [after, step_of_next? hnext]
      have htotal := total_advance (t := p.exec τ.runtime pick s.store) (fun _ => Point.hopes t)
        hnext
      have hexec := Point.exec_hopes τ.runtime pick s.store p
        (t := t)
      have htaken : (s.taken? (.step j pick) == some t) =
          (p.takes && s.conn.tokens.next == t) := by
        rw [taken?_of_next? hnext]
        cases p.takes <;> rfl
      simp only [hopes, htaken]
      simp only [conn] at htotal hexec ⊢
      omega
  | handle pick =>
    rcases s.handle_cases pick with h | ⟨p, rest, u, -, -, h⟩ <;> rw [after, h] <;>
      exact Nat.le_add_right _ _
  | abandon j => exact Nat.le_add_right_of_le (s.total_abandon_le _ j)
  | collect =>
    rcases s.collect_cases with h | h <;> rw [after, h] <;> exact Nat.le_add_right _ _

/-- A token that is taken is new. -/
theorem Few.named_of_taken? (h : Few n s) (hfew : n < 2 ^ 64) (ht : s.taken? a = some t) :
    s.named t = 0 := by
  obtain ⟨m, hm, hs⟩ := h
  cases a with
  | step j pick =>
    cases hnext : s.next? j with
    | none => simp [taken?, hnext] at ht
    | some x =>
      obtain ⟨τ, p, rest⟩ := x
      rw [taken?_of_next? hnext] at ht
      split at ht
      next htakes =>
        obtain rfl := Option.some.inj ht
        have hasks := asks_advance_le hnext pick
        rw [htakes, Bool.toNat_true] at hasks
        exact hs.fresh (by omega)
      next => cases ht
  | _ => cases ht

/-- A query that has its token is not asked again. -/
theorem Few.hopes_after_le (h : Few n s) (hn : n < 2 ^ 64) (a : Action) (ht : 0 < s.named t) :
    (s.after a).hopes t ≤ s.hopes t := by
  have hle := s.hopes_after_le a t
  cases htaken : s.taken? a == some t with
  | false => rwa [htaken] at hle
  | true =>
    rw [h.named_of_taken? hn (beq_iff_eq.mp htaken)] at ht
    cases ht

theorem named_of_cursor {i : CursorId} {k : Cursor} (hk : s.conn.cursors[i]? = some k) :
    0 < s.named k.token :=
  Nat.lt_of_lt_of_le (List.count_pos_iff.mpr (List.mem_map_of_mem (List.mem_of_getElem? hk)))
    (Nat.le_add_right _ _)

theorem query?_opening {call : Connection.Action} : ∀ q ∈ opening call, q.query? = none := by
  cases call <;> simp [opening, Point.query?, Purpose.query?]

theorem owner?_opening {call : Connection.Action} {i : CursorId} :
    ∀ q ∈ opening call, q.owner? = some i → call.cursor? = some i := by
  cases call <;> simp [opening, Point.owner?, Connection.Action.cursor?]

/-- Once a query has been written, nobody asks it any more. -/
theorem Handed.hopes_of_wrote (h : Handed s) {q : Purpose} (pick : Nat)
    (hnext : s.next? j = some (τ, .wrote none q, rest)) (hq : q.hopes t = 1) :
    (s.after (.step j pick)).hopes t = 0 := by
  rw [after, step_of_next? hnext]
  have htotal := total_advance (t := (Point.wrote none q).exec τ.runtime pick s.store)
    (fun _ => Point.hopes t) hnext
  have hexec : ((((Point.wrote none q).exec τ.runtime pick s.store).next.map
      (Point.hopes t)).sum = 0) ∧
      ((Point.wrote none q).exec τ.runtime pick s.store).spawned = [] := by
    cases q with
    | query u id => exact ⟨Point.sum_of_isSequel (fun q => Point.hopes_of_isSequel) rfl,
        Point.spawned_of_isOnCursor rfl⟩
    | _ => exact ⟨rfl, rfl⟩
  have hle := h.hopes_le t
  simp only [hopes, hexec.1, hexec.2, Point.hopes, hq, List.map_nil, List.sum_nil] at htotal hle ⊢
  omega

/-- Whoever carries out what does not come in is a computation of somebody who calls. -/
theorem step_of_section? (hr : Regular s) (hp : s.section? a = some p)
    (hincoming : p.isIncoming = false) :
    ∃ j pick τ rest, a = .step j pick ∧ s.next? j = some (τ, p, rest) := by
  cases a with
  | step j pick =>
    obtain ⟨⟨τ, q, rest⟩, hnext, rfl⟩ := Option.map_eq_some_iff.mp hp
    exact ⟨j, pick, τ, rest, rfl, hnext⟩
  | handle pick =>
    rw [hr.handler p (List.mem_of_mem_head? hp)] at hincoming
    cases hincoming
  | _ => cases hp

/-- How a cursor comes to be held. -/
theorem Handed.held_after (h : Handed s) (hr : Regular s) (a : Action) {i : CursorId} {k : Cursor}
    (hk : (s.after a).conn.cursors[i]? = some k) (hheld : k.held = true) :
    (∃ l, s.conn.cursors[i]? = some l ∧ l.held = true ∧ l.token = k.token) ∨
      (s.after a).hopes k.token = 0 := by
  rcases cursor_of_after hk with ⟨l, hl, rfl | ⟨p, hp, ht⟩⟩ | ⟨-, p, hp, hadded⟩
  · exact .inl ⟨_, hl, hheld, rfl⟩
  · rcases ht.held_of hheld with hlheld | ⟨t, rfl⟩
    · exact .inl ⟨l, hl, hlheld, ht.token_eq.symm⟩
    · obtain ⟨j, pick, τ, rest, rfl, hnext⟩ := step_of_section? hr hp rfl
      obtain ⟨l', hl', htoken⟩ := h.query.of_next? hnext (t, i) rfl
      obtain rfl := Option.some.inj (hl.symm.trans hl')
      right
      rw [ht.token_eq, htoken]
      exact h.hopes_of_wrote pick hnext (by simp [Purpose.hopes])
  · right
    cases p with
    | register u r =>
      obtain rfl := Option.some.inj hadded
      cases hheld
    | wrote error q =>
      cases error with
      | some e => cases hadded
      | none =>
        cases q with
        | noreply u r =>
          obtain rfl := Option.some.inj hadded
          obtain ⟨j, pick, τ, rest, rfl, hnext⟩ := step_of_section? hr hp rfl
          exact h.hopes_of_wrote pick hnext (by simp [Purpose.hopes])
        | _ => cases hadded
    | _ => cases hadded

theorem There.after (h : There s) (a : Action) : There (s.after a) := by
  have hlength : s.conn.cursors.length ≤ (s.after a).conn.cursors.length := length_le_after s a
  refine Each.after h a (fun p hp i hi => Nat.lt_of_lt_of_le (hp i hi) hlength)
    (fun call runtime _ hadmits q hq i hi => ?_) fun j pick τ p rest _ hnext q hq i hi => ?_
  · obtain ⟨k, hk, -⟩ := held_of_admits hadmits (owner?_opening q hq hi)
    exact Nat.lt_of_lt_of_le (List.getElem?_eq_some_iff.mp hk).choose hlength
  · exact Nat.lt_of_lt_of_le (Each.of_next? h hnext i (Point.exec_owner? q hq hi)) hlength

theorem there_run (settings : Settings) (as : List Action) : There ((start settings).run as) :=
  run_induction (fun _ a h => h.after a) (fun _ hτ => by cases hτ) as

theorem Handed.after (h : Handed s) (hr : Regular s) (hfew : Few n s) (hn : n < 2 ^ 64)
    (a : Action) : Handed (s.after a) := by
  have hle {t : Token} (ht : 0 < s.named t) := hfew.hopes_after_le hn a ht
  have hstays {i : CursorId} {t : Token} (hk : ∃ k, s.conn.cursors[i]? = some k ∧ k.token = t) :
      ∃ k, (s.after a).conn.cursors[i]? = some k ∧ k.token = t := by
    obtain ⟨k, hk, hkt⟩ := hk
    obtain ⟨k', hk', rfl | ⟨p, -, ht⟩⟩ := cursor_after hk a
    · exact ⟨_, hk', hkt⟩
    · exact ⟨k', hk', ht.token_eq.trans hkt⟩
  refine ⟨?_, ?_, ?_, ?_, ?_⟩
  · refine h.query.after a (fun p hp x hx => hstays (hp x hx))
      (fun call runtime _ _ q hq x hx => ?_) fun j pick τ p rest ha hnext q hq x hx => ?_
    · rw [query?_opening q hq] at hx
      cases hx
    · rcases Point.exec_query? q hq hx with hpx | ⟨r, rfl, hlength⟩
      · exact hstays (h.query.of_next? hnext x hpx)
      · refine ⟨⟨x.1, r.term, r.isExclusive, .start, true, false⟩, ?_, rfl⟩
        subst ha
        rw [State.after, step_of_next? hnext, hlength]
        exact exec_added rfl
  · intro t
    by_cases ht : 0 < s.named t
    · exact Nat.le_trans (hle ht) (h.hopes_le t)
    · have hzero : s.hopes t = 0 := Nat.eq_zero_of_not_pos fun hpos => ht (h.named_pos hpos)
      refine Nat.le_trans (s.hopes_after_le a t) ?_
      rw [hzero, Nat.zero_add]
      exact Bool.toNat_le _
  · intro i k hk hheld
    rcases h.held_after hr a hk hheld with ⟨l, hl, hlheld, ht⟩ | hzero
    · have hzero := h.held i l hl hlheld
      rw [← ht]
      exact Nat.eq_zero_of_le_zero (hzero ▸ hle (named_of_cursor hl))
    · exact hzero
  · exact h.there.after a
  · intro i k hk hpos
    rcases cursor_of_after hk with ⟨l, hl, htouch⟩ | ⟨rfl, p, hp, hadded⟩
    · have htoken : k.token = l.token := by
        rcases htouch with rfl | ⟨p, -, ht⟩
        · rfl
        · exact ht.token_eq
      have hposl : 0 < s.hopes l.token :=
        Nat.lt_of_lt_of_le (htoken ▸ hpos) (hle (named_of_cursor hl))
      refine (h.owner i l hl hposl).after a (fun p hp => hp)
        (fun call runtime _ hadmits q hq hi => ?_) fun j pick τ p rest _ hnext q hq hi => ?_
      · obtain ⟨l', hl', hheld⟩ := held_of_admits hadmits (owner?_opening q hq hi)
        obtain rfl := Option.some.inj (hl.symm.trans hl')
        rw [h.held i _ hl hheld] at hposl
        cases hposl
      · exact (h.owner i l hl hposl).of_next? hnext (Point.exec_owner? q hq hi)
    · have hthere : Each (fun p => p.owner? ≠ some s.conn.cursors.length) s :=
        fun τ hτ p hp hi => Nat.lt_irrefl _ (h.there τ hτ p hp _ hi)
      refine hthere.after a (fun p hp => hp) (fun call runtime _ hadmits q hq hi => ?_)
        fun j pick τ p rest _ hnext q hq hi => ?_
      · obtain ⟨l, hl, -⟩ := held_of_admits hadmits (owner?_opening q hq hi)
        exact Nat.lt_irrefl _ (List.getElem?_eq_some_iff.mp hl).choose
      · exact hthere.of_next? hnext (Point.exec_owner? q hq hi)

theorem handed_start (settings : Settings) : Handed (start settings) := by
  have hnone {P : Point → Prop} : Each P (start settings) := fun τ hτ => by cases hτ
  refine ⟨hnone, fun _ => Nat.zero_le _, fun i k hk => ?_, hnone, fun i k hk => ?_⟩ <;>
    · rw [cursor_start] at hk
      cases hk

/-- What holds in every state of a new connection, as long as fewer queries are asked than there are
tokens. -/
structure Proper (n : Nat) (s : State) : Prop where
  regular : Regular s
  few : Few n s
  handed : Handed s
  bound : n < 2 ^ 64

theorem Proper.after (h : Proper n s) (a : Action) (hn : n + a.isQuery.toNat < 2 ^ 64) :
    Proper (n + a.isQuery.toNat) (s.after a) :=
  ⟨h.regular.after a, h.few.after h.regular a hn, h.handed.after h.regular h.few h.bound a, hn⟩

theorem proper_start (settings : Settings) : Proper 0 (start settings) :=
  ⟨regular_start settings, few_start settings, handed_start settings, by decide⟩

theorem countP_isQuery_cons (a : Action) (as : List Action) :
    (a :: as).countP (·.isQuery) = a.isQuery.toNat + as.countP (·.isQuery) := by
  cases ha : a.isQuery <;> simp [ha, Nat.add_comm]

theorem Proper.run (h : Proper n s) {as : List Action}
    (hn : n + as.countP (·.isQuery) < 2 ^ 64) : Proper (n + as.countP (·.isQuery)) (s.run as) := by
  induction as generalizing s n with
  | nil => exact h
  | cons a as ih =>
    rw [countP_isQuery_cons, ← Nat.add_assoc] at hn ⊢
    exact ih (h.after a (by omega)) hn

theorem proper_run (settings : Settings) {as : List Action}
    (hfew : as.countP (·.isQuery) < 2 ^ 64) :
    Proper (as.countP (·.isQuery)) ((start settings).run as) := by
  have hrun := (proper_start settings).run (by rwa [Nat.zero_add])
  rwa [Nat.zero_add] at hrun

end State
end Reql.Async
