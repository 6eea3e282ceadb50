import Mathlib.Data.List.Nodup
import Reql.Proofs.Async.Touching
import Reql.Proofs.Connection.Numbering

/-! Tokens differ until they wrap around, those of queries that are still to be registered
included. -/
namespace Reql.Async

def Purpose.names (t : Token) : Purpose → Nat
  | .noreply u _ => (u == t).toNat
  | _ => 0

namespace Point

def names (t : Token) : Point → Nat
  | register u _ => (u == t).toNat
  | write _ q | await _ q | feed _ q | flush _ q | wrote none q | check _ q | lookUp _ q =>
    q.names t
  | _ => 0

def asks : Point → Nat
  | enter _ | take _ => 1
  | _ => 0

def takes : Point → Bool
  | take _ => true
  | _ => false

/-- Whether a section is one on the cursor that its computation is about. -/
def isOnCursor : Point → Bool
  | read _ | prime _ | close _ | leave _ | letGo _ | deliver .. | reject .. | wrote none (.query ..)
  | wrote (some _) (.fetch _) => true
  | _ => false

/-- Whether a section is one of those that follow such a section. -/
def isSequel : Point → Bool
  | reply _ | deregister _ | shutDown .. | check _ (.fetch _) | halt _ | spawnStop _
  | letGo _ => true
  | _ => false

variable {runtime : Bool} {pick : Nat} {s : Store} {p : Point} {t : Token}

theorem sequels (h : p.isOnCursor = true) :
    ∀ q ∈ (p.exec runtime pick s).next, q.isSequel = true := by
  have hfinish (k : Cursor) : ∀ q ∈ finish k, q.isSequel = true := by
    unfold finish
    cases k.exclusive <;> simp [isSequel]
  have hlast {ps : List Point} (hps : ∀ q ∈ ps, q.isSequel = true) (r : Connection.Reply) :
      ∀ q ∈ ps ++ [reply r], q.isSequel = true := by
    intro q hq
    rcases List.mem_append.mp hq with hq | hq
    · exact hps q hq
    · rw [List.mem_singleton.mp hq]
      rfl
  have hone (r : Connection.Reply) : ∀ q ∈ [reply r], q.isSequel = true := by simp [isSequel]
  have honCursor (id : CursorId) (f : Cursor → Cursor) {g : Cursor → List Point}
      (hg : ∀ k, ∀ q ∈ g k, q.isSequel = true) :
      ∀ q ∈ (s.onCursor id f g).next, q.isSequel = true :=
    onCursor_next (P := fun ps => ∀ q ∈ ps, q.isSequel = true) f (by simp) hg
  cases p with
  | read id =>
    refine honCursor id _ fun k => ?_
    rcases afterRead_cases id k with ⟨r, h⟩ | ⟨r, h⟩ | h <;> rw [h]
    · exact hone r
    · exact hlast (hfinish k) r
    · simp [isSequel]
  | prime id =>
    refine honCursor id _ fun k => ?_
    rcases afterPrime_cases k with ⟨r, h⟩ | ⟨r, h⟩ <;> rw [h]
    · exact hone r
    · exact hlast (hfinish k) r
  | close id =>
    refine honCursor id _ fun k => ?_
    unfold afterClose
    cases k.inbox.closed <;> cases k.exclusive <;> cases k.inbox.serverDone <;> simp [isSequel]
  | leave id =>
    refine honCursor id _ fun k => ?_
    unfold afterLeave
    cases k.inbox.isRunning <;> cases k.exclusive <;> simp [isSequel]
  | letGo => exact honCursor _ _ fun _ => hone _
  | deliver | reject => exact honCursor _ _ fun _ => by simp
  | wrote error q =>
    cases q <;> cases error <;> try cases h
    · exact honCursor _ _ fun _ => by simp
    · exact honCursor _ _ fun k => hlast (hfinish k) _
  | _ => cases h

theorem sum_of_isSequel {w : Point → Nat} (hw : ∀ p, p.isSequel = true → w p = 0)
    (h : p.isOnCursor = true) : ((p.exec runtime pick s).next.map w).sum = 0 :=
  List.sum_eq_zero fun n hn => by
    obtain ⟨q, hq, rfl⟩ := List.mem_map.mp hn
    exact hw q (sequels h q hq)

theorem spawned_of_isOnCursor (h : p.isOnCursor = true) :
    (p.exec runtime pick s).spawned = [] := by
  cases p with
  | read | prime | close | leave | letGo | deliver | reject => exact s.onCursor_spawned _ _ _
  | wrote error q =>
    cases q <;> cases error <;> try cases h
    · exact s.onCursor_spawned _ _ _
    · exact s.onCursor_spawned _ _ _
  | _ => cases h

theorem names_of_isSequel (hp : p.isSequel = true) : p.names t = 0 := by
  cases p with
  | check u q => cases q <;> first | rfl | cases hp
  | _ => first | rfl | cases hp

theorem asks_of_isSequel (hp : p.isSequel = true) : p.asks = 0 := by
  cases p <;> first | rfl | cases hp

/-- A section adds the cursors that it leads to; a new token comes from the source. -/
theorem exec_names (t : Token) (runtime : Bool) (pick : Nat) (s : Store) (p : Point) :
    let u := p.exec runtime pick s
    (p.added?.toList.map (·.token)).count t + (u.next.map (names t)).sum +
      (u.spawned.map (names t)).sum ≤
    p.names t + (p.takes && s.conn.tokens.next == t).toNat := by
  have hadded (u : Token) : [u].count t ≤ (u == t).toNat := by
    by_cases h : u = t <;> simp [h]
  by_cases hon : p.isOnCursor = true
  · simp only [sum_of_isSequel (fun q => names_of_isSequel) hon, spawned_of_isOnCursor hon]
    cases p with
    | wrote error q => cases q <;> cases error <;> first | exact Nat.zero_le _ | cases hon
    | _ => first | exact Nat.zero_le _ | cases hon
  · cases p with
    | read | prime | close | leave | letGo | deliver | reject => exact absurd rfl hon
    | wrote error q =>
      cases q <;> cases error <;> first | exact absurd rfl hon | exact Nat.zero_le _ | skip
      exact Nat.le_add_right_of_le (hadded _)
    | register u r => exact Nat.le_add_right_of_le (hadded u)
    | take r =>
      simp only [exec, TokenSource.take, Store.change_next, Store.change_spawned, added?]
      split <;> simp [names, Purpose.names, takes]
    | _ =>
      simp only [exec, afterFault]
      repeat' split
      all_goals simp [added?, names, Purpose.names, takes]

theorem exec_asks (runtime : Bool) (pick : Nat) (s : Store) (p : Point) :
    let u := p.exec runtime pick s
    p.takes.toNat + (u.next.map asks).sum + (u.spawned.map asks).sum ≤ p.asks := by
  by_cases hon : p.isOnCursor = true
  · simp only [sum_of_isSequel (fun q => asks_of_isSequel) hon, spawned_of_isOnCursor hon]
    cases p <;> first | exact Nat.zero_le _ | cases hon
  · cases p with
    | read | prime | close | leave | letGo | deliver | reject => exact absurd rfl hon
    | wrote error q =>
      cases q <;> cases error <;> first | exact absurd rfl hon | exact Nat.zero_le _
    | take r =>
      simp only [exec, TokenSource.take, Store.change_next, Store.change_spawned]
      split <;> simp [asks, takes]
    | _ =>
      simp only [exec, afterFault]
      repeat' split
      all_goals simp [asks, takes]

theorem exec_source (h : p.takes = false) :
    (p.exec runtime pick s).store.conn.tokens = s.conn.tokens := by
  cases p with
  | read | prime | close | leave | letGo | deliver | reject => exact s.onCursor_tokens _ _ _
  | wrote error q =>
    cases q <;> cases error <;> first | rfl | exact s.onCursor_tokens _ _ _
  | feed | flush | endWriting =>
    simp only [exec]
    repeat' split
    all_goals simp_all [Store.accept]
  | take => cases h
  | _ =>
    simp only [exec]
    repeat' split
    all_goals rfl

theorem exec_source_of_takes (h : p.takes = true) :
    (p.exec runtime pick s).store.conn.tokens = s.conn.tokens.take.2 := by
  cases p <;> first | rfl | cases h

theorem unnamed_of_isIncoming (h : p.isIncoming = true) :
    p.takes = false ∧ p.added? = none := by
  cases p <;> first | exact ⟨rfl, rfl⟩ | cases h

end Point

def Action.isQuery : Action → Bool
  | .begin (.query ..) _ | .begin .noreplyWait _ => true
  | _ => false

namespace State

variable {s : State} {a : Action} {as bs : List Action} {j : TaskId} {τ : Task} {p : Point}
  {rest : List Point} {t : Token} {n : Nat}

/-- The cursors under a token, those that are still to be added included. -/
def named (t : Token) (s : State) : Nat :=
  (s.conn.cursors.map (·.token)).count t + s.total fun _ => Point.names t

/-- The tokens that calls in progress have still to take. -/
def asks (s : State) : Nat :=
  s.total fun _ => Point.asks

/-- The tokens of all cursors, those still to be added included, are among the first `n`, and
differ. -/
structure Numbered (n : Nat) (s : State) : Prop where
  next : s.conn.tokens.next = UInt64.ofNat (n + 1)
  named_le : ∀ t, s.named t ≤ 1
  early : ∀ t, 0 < s.named t → ∃ m, 1 ≤ m ∧ m ≤ n ∧ t = UInt64.ofNat m

theorem Numbered.of_le {s' : State} (h : Numbered n s) (htokens : s'.conn.tokens = s.conn.tokens)
    (hnamed : ∀ t, s'.named t ≤ s.named t) : Numbered n s' :=
  ⟨htokens ▸ h.next, fun t => Nat.le_trans (hnamed t) (h.named_le t),
    fun t ht => h.early t (Nat.lt_of_lt_of_le ht (hnamed t))⟩

theorem named_advance_le (h : s.next? j = some (τ, p, rest)) (pick : Nat) (t : Token) :
    (s.advance j τ rest (p.exec τ.runtime pick s.store)).named t ≤
      s.named t + (p.takes && s.conn.tokens.next == t).toNat := by
  have htotal := total_advance (t := p.exec τ.runtime pick s.store)
    (fun _ => Point.names t) h
  have hexec := Point.exec_names t τ.runtime pick s.store p
  simp only [named, conn, State.advance, exec_tokens, List.count_append] at htotal hexec ⊢
  omega

theorem asks_advance_le (h : s.next? j = some (τ, p, rest)) (pick : Nat) :
    (s.advance j τ rest (p.exec τ.runtime pick s.store)).asks + p.takes.toNat ≤
      s.asks := by
  have htotal := total_advance (t := p.exec τ.runtime pick s.store)
    (fun _ => Point.asks) h
  have hexec := Point.exec_asks τ.runtime pick s.store p
  simp only [asks] at htotal hexec ⊢
  omega

/-- The next token is a new one, until tokens wrap around. -/
theorem Numbered.fresh (h : Numbered n s) (hn : n + 1 < 2 ^ 64) :
    s.named s.conn.tokens.next = 0 := by
  refine Nat.eq_zero_of_not_pos fun hpos => ?_
  obtain ⟨m, -, hmn, hm⟩ := h.early _ hpos
  have := Connection.ofNat_inj (by omega) hn (hm.symm.trans h.next)
  omega

/-- A section takes a new token, until tokens wrap around. -/
theorem Numbered.advance (h : Numbered n s) (hnext : s.next? j = some (τ, p, rest)) (pick : Nat)
    (hfew : n + p.takes.toNat < 2 ^ 64) : Numbered (n + p.takes.toNat)
      (s.advance j τ rest (p.exec τ.runtime pick s.store)) := by
  have hnamed := named_advance_le hnext pick
  cases htakes : p.takes with
  | false =>
    rw [htakes] at hnamed
    exact h.of_le (Point.exec_source htakes) hnamed
  | true =>
    rw [htakes] at hfew hnamed
    have hfresh := h.fresh hfew
    have hle (t : Token) : (s.advance j τ rest
        (p.exec τ.runtime pick s.store)).named t ≤ 1 := by
      have hat := hnamed t
      by_cases ht : s.conn.tokens.next = t
      · subst ht
        simp only [hfresh, Bool.true_and, beq_self_eq_true, Bool.toNat_true] at hat
        omega
      · simp only [Bool.true_and, beq_eq_false_iff_ne.mpr ht, Bool.toNat_false] at hat
        exact Nat.le_trans hat (h.named_le t)
    refine ⟨?_, hle, fun t ht => ?_⟩
    · have hsource : (s.advance j τ rest (p.exec τ.runtime pick s.store)).conn.tokens =
        s.conn.tokens.take.2 := Point.exec_source_of_takes htakes
      rw [hsource, Bool.toNat_true, UInt64.ofNat_add (n + 1), ← h.next]
      rfl
    · by_cases htn : s.conn.tokens.next = t
      · exact ⟨n + 1, Nat.succ_pos n, Nat.le_refl _, htn.symm.trans h.next⟩
      · have hat := hnamed t
        simp only [Bool.true_and, beq_eq_false_iff_ne.mpr htn, Bool.toNat_false] at hat
        obtain ⟨m, hpos, hmn, hm⟩ := h.early t (Nat.lt_of_lt_of_le ht hat)
        exact ⟨m, hpos, Nat.le_succ_of_le hmn, hm⟩

/-- No more tokens have been or are being taken than this number. -/
def Few (n : Nat) (s : State) : Prop :=
  ∃ m, m + s.asks ≤ n ∧ Numbered m s

theorem Few.of_le {s' : State} {n' : Nat} (h : Few n s)
    (htokens : s'.conn.tokens = s.conn.tokens) (hnamed : ∀ t, s'.named t ≤ s.named t)
    (hasks : s'.asks + n ≤ s.asks + n') : Few n' s' := by
  obtain ⟨m, hm, hs⟩ := h
  exact ⟨m, by omega, hs.of_le htokens hnamed⟩

theorem opening_names (runtime : Bool) (call : Connection.Action) :
    ((opening call).map (Point.names t)).sum = 0 ∧
      ((opening call).map Point.asks).sum = (Action.begin call runtime).isQuery.toNat := by
  cases call <;> exact ⟨rfl, rfl⟩

/-- Every token is taken for a query that somebody asks. -/
theorem Few.after (h : Few n s) (hr : Regular s) (a : Action)
    (hfew : n + a.isQuery.toNat < 2 ^ 64) : Few (n + a.isQuery.toNat) (s.after a) := by
  have hsame : Few (n + a.isQuery.toNat) s := h.of_le rfl (fun _ => Nat.le_refl _) (by omega)
  cases a with
  | begin call runtime =>
    rcases s.begin_cases runtime call with hs | ⟨-, hs⟩ | ⟨c, rfl, -, hs⟩ | ⟨reason, -, hs⟩ |
      ⟨event, -, hs⟩ <;> rw [State.after, hs]
    case inr.inl =>
      refine h.of_le rfl (fun t => ?_) ?_
      · simp only [named, total_launch, (opening_names runtime call).1]
        exact Nat.le_refl _
      · simp only [asks, total_launch, (opening_names (t := 0) runtime call).2]
        omega
    all_goals exact hsame.of_le rfl (fun t => Nat.le_refl _) (Nat.le_refl _)
  | step j pick =>
    cases hnext : s.next? j with
    | none => rwa [State.after, step, hnext]
    | some x =>
      obtain ⟨τ, p, rest⟩ := x
      obtain ⟨m, hm, hs⟩ := h
      rw [State.after, step_of_next? hnext]
      have hasks := asks_advance_le hnext pick
      exact ⟨m + p.takes.toNat, by omega, hs.advance hnext pick (by omega)⟩
  | handle pick =>
    rcases s.handle_cases pick with hs | ⟨p, rest, u, htodo, rfl, hs⟩ <;> rw [State.after, hs]
    · exact hsame
    · obtain ⟨htakes, hadded⟩ :=
        Point.unnamed_of_isIncoming (hr.handler p (htodo ▸ List.mem_cons_self))
      refine hsame.of_le (Point.exec_source htakes) (fun t => ?_) (Nat.le_refl _)
      simp only [named, conn, exec_tokens, hadded, Option.toList_none, List.map_nil,
        List.append_nil]
      exact Nat.le_refl _
  | abandon j =>
    refine h.of_le ?_ (fun t => ?_) ?_
    · rw [State.after, conn, abandon_store, conn]
    · have := s.total_abandon_le (fun _ => Point.names t) j
      simp only [State.after, named, conn, abandon_store]
      omega
    · have := s.total_abandon_le (fun _ => Point.asks) j
      simp only [State.after, asks]
      omega
  | collect =>
    rcases s.collect_cases with hs | hs <;> rw [State.after, hs] <;>
      exact hsame.of_le rfl (fun t => Nat.le_refl _) (Nat.le_refl _)

theorem few_start (settings : Settings) : Few 0 (start settings) :=
  ⟨0, Nat.le_refl _, rfl, fun _ => Nat.zero_le _, fun _ h => absurd h (Nat.lt_irrefl 0)⟩

/-- Until tokens wrap around, each of them has one cursor. -/
theorem Few.eq_of_token (h : Few n s) {i j : CursorId} {k l : Cursor}
    (hk : s.conn.cursors[i]? = some k) (hl : s.conn.cursors[j]? = some l)
    (ht : l.token = k.token) : j = i := by
  obtain ⟨m, -, hs⟩ := h
  have hnodup : (s.conn.cursors.map (·.token)).Nodup :=
    List.nodup_iff_count_le_one.mpr fun t =>
      Nat.le_trans (Nat.le_add_right _ _) (hs.named_le t)
  have hi : (s.conn.cursors.map (·.token))[i]? = some k.token := by
    rw [List.getElem?_map, hk, Option.map_some]
  have hj : (s.conn.cursors.map (·.token))[j]? = some k.token := by
    rw [List.getElem?_map, hl, Option.map_some, ht]
  exact (List.getElem?_inj (List.getElem?_eq_some_iff.mp hj).choose hnodup).mp (hj.trans hi.symm)

end State
end Reql.Async
