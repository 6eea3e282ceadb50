import Reql.Proofs.Async.Waiting

/-! What concerns a cursor is left to its owner, to whoever still asks its query, and to the handler
of reports. -/
namespace Reql.Async

/-- Whether a message is written for the query under the token `t` or for the cursor at `i`. -/
def Purpose.concerns (t : Token) (i : CursorId) : Purpose → Bool
  | .query u id => u == t || id == i
  | .fetch id => id == i
  | _ => false

/-- Whether a message is written for the owner of the cursor at `i`. -/
def Purpose.isMine (i : CursorId) : Purpose → Bool
  | .fetch id => id == i
  | .other => true
  | _ => false

/-- The cursor at `i` and no other one has the token `t`. -/
def Store.Sole (t : Token) (i : CursorId) (s : Store) : Prop :=
  ∀ l k, s.conn.cursors[l]? = some k → (k.token = t ↔ l = i)

namespace Point

/-- Whether a section concerns the token `t` or the cursor at `i`. -/
def concerns (t : Token) (i : CursorId) : Point → Bool
  | deregister u | register u _ => u == t
  | recheck u id _ => u == t || id == i
  | write _ q | await _ q | feed _ q | flush _ q | wrote _ q | check _ q | lookUp _ q =>
    q.concerns t i
  | read id | prime id | close id | leave id | letGo id | deliver id _ | reject id _ => id == i
  | route f => f.token == t
  | drain _ | fail .. => true
  | _ => false

/-- Whether a section is one of those by which the owner of the cursor at `i`, with the token `t`,
goes on while the connection is open. -/
def isMine (t : Token) (i : CursorId) : Point → Bool
  | read id | prime id | close id | leave id | letGo id => id == i
  | check u q | lookUp u q => u == t && q.isMine i
  | write _ q | await _ q | feed _ q | flush _ q | wrote _ q => q.isMine i
  | deregister u => u == t
  | halt _ | spawnStop _ | shutDown .. | reply _ => true
  | _ => false

variable {runtime : Bool} {pick : Nat} {s : Store} {p q : Point} {t : Token} {i : CursorId}
  {k k' : Cursor}

theorem isRegistered_of_sole (hk : s.conn.cursors[i]? = some k) (hsole : s.Sole t i) :
    s.conn.isRegistered t = k.registered := by
  have ht : k.token = t := (hsole i k hk).mpr rfl
  rw [Connection.isRegistered, Bool.eq_iff_iff, List.any_eq_true]
  constructor
  · rintro ⟨m, hm, hmt⟩
    obtain ⟨l, hl⟩ := List.getElem?_of_mem hm
    rw [Bool.and_eq_true, beq_iff_eq] at hmt
    obtain rfl := (hsole l m hl).mp hmt.2
    obtain rfl := Option.some.inj (hl.symm.trans hk)
    exact hmt.1
  · exact fun hr => ⟨k, List.mem_of_getElem? hk, by simp [hr, ht]⟩

theorem registered_of_sole (hsole : s.Sole t i) (h : s.conn.isRegistered t = true) :
    ∃ k, s.conn.cursors[i]? = some k ∧ k.registered = true := by
  obtain ⟨k, hk, hkt⟩ := List.any_eq_true.mp h
  obtain ⟨hr, ht⟩ := Bool.and_eq_true_iff.mp hkt
  obtain ⟨l, hl⟩ := List.getElem?_of_mem hk
  obtain rfl := (hsole l k hl).mp (beq_iff_eq.mp ht)
  exact ⟨k, hl, hr⟩

theorem findIdx?_of_sole (hk : s.conn.cursors[i]? = some k) (hsole : s.Sole t i) :
    (s.conn.cursors.findIdx? fun k => k.registered && k.token == t) =
      if k.registered then some i else none := by
  have hkt : k.token = t := (hsole i k hk).mpr rfl
  cases h : s.conn.cursors.findIdx? fun k => k.registered && k.token == t with
  | none =>
    have hnot := List.findIdx?_eq_none_iff.mp h k (List.mem_of_getElem? hk)
    simp only [hkt, beq_self_eq_true, Bool.and_true] at hnot
    rw [hnot]
    rfl
  | some l =>
    obtain ⟨hlt, hfound, -⟩ := List.findIdx?_eq_some_iff_getElem.mp h
    obtain ⟨hr, ht⟩ := Bool.and_eq_true_iff.mp hfound
    have hl := List.getElem?_eq_getElem hlt
    obtain rfl := (hsole l _ hl).mp (beq_iff_eq.mp ht)
    obtain rfl := Option.some.inj (hl.symm.trans hk)
    rw [hr]
    rfl

/-- What does not concern a cursor leaves it as it is. -/
theorem eq_of_not_concerns (ht : Touch i k p k') (hp : p.concerns k.token i = false) : k' = k := by
  cases ht with
  | none => rfl
  | deregister u hu | displace u r hu => simp [concerns, hu] at hp
  | drain | fail => cases hp
  | _ => simp [concerns, Purpose.concerns] at hp

/-- Whoever asks a query does nothing to its cursor but hand it over. -/
theorem unheld_of_hopes (ht : Touch i k p k') (hp : 0 < p.hopes k.token)
    (hregister : ∀ r, p ≠ register k.token r) : k' = { k with held := k'.held } := by
  cases ht with
  | none | handOver => rfl
  | displace u r hu => exact absurd (by rw [hu]) (hregister r)
  | _ => cases hp

theorem concerns_finish (hk : k.token ≠ t) (r : Connection.Reply) :
    ∀ q ∈ finish k ++ [reply r], q.concerns t i = false := by
  unfold finish
  cases k.exclusive <;> simp [concerns, hk]

/-- A section on another cursor. -/
theorem concerns_onCursor {id : CursorId} (f : Cursor → Cursor) {g : Cursor → List Point}
    (hsole : s.Sole t i) (hid : (id == i) = false)
    (hg : ∀ k, k.token ≠ t → ∀ q ∈ g k, q.concerns t i = false) :
    ∀ q ∈ (s.onCursor id f g).next ++ (s.onCursor id f g).spawned, q.concerns t i = false := by
  rw [Store.onCursor_spawned, List.append_nil]
  rcases s.onCursor_cases id f g with h | ⟨k, hk, h⟩ <;> rw [h]
  · simp
  · exact hg k fun ht => (beq_eq_false_iff_ne.mp hid) ((hsole id k hk).mp ht)

theorem concerns_owner {id : CursorId} (hsole : s.Sole t i) (hid : p.owner? = some id)
    (hi : (id == i) = false) :
    ∀ q ∈ (p.exec runtime pick s).next ++ (p.exec runtime pick s).spawned,
      q.concerns t i = false := by
  cases p with
  | read id' =>
    obtain rfl := Option.some.inj hid
    refine concerns_onCursor _ hsole hi fun k hk => ?_
    rcases afterRead_cases id' k with ⟨r, h⟩ | ⟨r, h⟩ | h <;> rw [h]
    · simp [concerns]
    · exact concerns_finish hk r
    · simpa [concerns, Purpose.concerns] using hi
  | prime id' =>
    obtain rfl := Option.some.inj hid
    refine concerns_onCursor _ hsole hi fun k hk => ?_
    rcases afterPrime_cases k with ⟨r, h⟩ | ⟨r, h⟩ <;> rw [h]
    · simp [concerns]
    · exact concerns_finish hk r
  | close id' =>
    obtain rfl := Option.some.inj hid
    refine concerns_onCursor _ hsole hi fun k hk => ?_
    unfold afterClose
    cases k.inbox.closed <;> cases k.exclusive <;> cases k.inbox.serverDone <;> simp [concerns, hk]
  | leave id' =>
    obtain rfl := Option.some.inj hid
    refine concerns_onCursor _ hsole hi fun k hk => ?_
    have hi' : id' ≠ i := beq_eq_false_iff_ne.mp hi
    unfold afterLeave
    cases k.inbox.isRunning <;> cases k.exclusive <;> simp [concerns, hk, hi']
  | letGo id' =>
    obtain rfl := Option.some.inj hid
    exact concerns_onCursor _ hsole hi fun k hk => by simp [concerns]
  | _ => cases hid

theorem sole_of_exec (h : (p.exec runtime pick s).store.Sole t i) : s.Sole t i := by
  intro l k hk
  obtain ⟨k', hk', ht⟩ := exec_cursor runtime pick p hk
  rw [← ht.token_eq]
  exact h l k' hk'

theorem concerns_afterFault {e : FramingError} {q : Purpose} (hq : q.concerns t i = false) :
    ∀ p ∈ afterFault e q, p.concerns t i = false := by
  unfold afterFault
  split <;> simp [concerns, hq]

/-- A section that does not concern a cursor leads to such sections, but somebody may ask its
query. -/
theorem concerns_exec (hsole : (p.exec runtime pick s).store.Sole t i)
    (hp : p.concerns t i = false)
    (ho : p.closes = true → (p.exec runtime pick s).store.conn.closed = false) :
    ∀ q ∈ (p.exec runtime pick s).next ++ (p.exec runtime pick s).spawned,
      q.concerns t i = false ∨ 0 < q.hopes t := by
  have hs : s.Sole t i := sole_of_exec hsole
  have hleft {qs : List Point} (h : ∀ q ∈ qs, q.concerns t i = false) :
      ∀ q ∈ qs, q.concerns t i = false ∨ 0 < q.hopes t := fun q hq => .inl (h q hq)
  cases p with
  | read | prime | close | leave | letGo => exact hleft (concerns_owner hs rfl hp)
  | deliver | reject => exact hleft (concerns_onCursor _ hs hp fun k _ => by simp)
  | take r =>
    simp only [exec]
    split
    next hnoreply =>
      refine hleft ?_
      simp [concerns, Purpose.concerns]
    next =>
      by_cases hu : s.conn.tokens.take.1 = t
      · simp [hopes, hu]
      · simp [concerns, hu]
  | register u r =>
    have hu : u ≠ t := beq_eq_false_iff_ne.mp hp
    have hi : s.conn.cursors.length ≠ i := fun hi =>
      hu ((hsole _ _ (exec_added (p := register u r) rfl)).mpr hi)
    refine hleft ?_
    simp [exec, concerns, Connection.register, Connection.addCursor, Connection.deregister, hu, hi]
  | recheck u id r =>
    obtain ⟨hu, hid⟩ := Bool.or_eq_false_iff.mp hp
    refine hleft ?_
    simp only [exec]
    split <;> simp [concerns, Purpose.concerns, hu, hid]
  | wrote error q =>
    refine hleft ?_
    cases q <;> cases error
    case query.none =>
      exact concerns_onCursor _ hs (Bool.or_eq_false_iff.mp hp).2 fun k _ => by simp
    case query.some =>
      simpa [exec, concerns] using beq_eq_false_iff_ne.mp (Bool.or_eq_false_iff.mp hp).1
    case fetch.some =>
      exact concerns_onCursor _ hs hp fun k hk => concerns_finish hk _
    all_goals simp [exec, concerns]
  | feed m q =>
    refine hleft ?_
    simp only [exec]
    split
    next => simpa using concerns_afterFault hp
    next =>
      split
      · simpa using concerns_afterFault hp
      · simpa [concerns] using hp
  | flush m q =>
    refine hleft ?_
    simp only [exec]
    split
    · simpa using concerns_afterFault hp
    · simpa [concerns] using hp
  | shutDown cause closing =>
    cases (closed_of_closes (p := shutDown cause closing) rfl).symm.trans (ho rfl)
  | drain | fail => cases hp
  | route f =>
    refine hleft ?_
    simp only [exec]
    split
    next => simp
    next id hid =>
      obtain ⟨hlt, hfound, -⟩ := List.findIdx?_eq_some_iff_getElem.mp hid
      obtain ⟨-, htoken⟩ := Bool.and_eq_true_iff.mp hfound
      have hf : f.token ≠ t := beq_eq_false_iff_ne.mp hp
      have hid : id ≠ i := fun hi => hf
        ((beq_iff_eq.mp htoken).symm.trans ((hs id _ (List.getElem?_eq_getElem hlt)).mpr hi))
      split
      next => split <;> simp [concerns, hf, hid]
      next => simp [concerns, hf, hid]
  | write q p | lookUp u q | check u q =>
    refine hleft ?_
    simp only [exec]
    split <;> simpa [concerns] using hp
  | await m q => exact hleft (by simpa [exec, concerns] using hp)
  | _ =>
    refine hleft ?_
    simp only [exec]
    repeat' split
    all_goals simp [concerns, Purpose.concerns]

/-- A query under the token `t` is asked further by `ps`, or its request has been refused. -/
def Asks (t : Token) (i : CursorId) (p : Point) (ps : List Point) : Prop :=
  (∀ q ∈ ps, q.concerns t i = false ∨ 0 < q.hopes t) ∨
    ((∃ id, p.query? = some (t, id)) ∧ (∀ q, p ≠ wrote none q)) ∧ ∀ q ∈ ps, q.hopes t = 0

theorem asks_of_hopes {ps : List Point} (h : ∀ q ∈ ps, 0 < q.hopes t) : Asks t i p ps :=
  .inl fun q hq => .inr (h q hq)

theorem asks_of_refused {q : Purpose} {ps : List Point} (hq : 0 < q.hopes t)
    (hquery : p.query? = q.query?) (hwrote : ∀ q, p ≠ wrote none q)
    (hps : ∀ r ∈ ps, r.hopes t = 0 ∧ (q.concerns t i = false → r.concerns t i = false)) :
    Asks t i p ps := by
  cases q with
  | query u id =>
    have hu : u = t := by
      by_contra hu
      simp [Purpose.hopes, beq_eq_false_iff_ne.mpr hu] at hq
    exact .inr ⟨⟨⟨id, by rw [hquery, ← hu]; rfl⟩, hwrote⟩, fun r hr => (hps r hr).1⟩
  | noreply u r => exact .inl fun r hr => .inl ((hps r hr).2 rfl)
  | fetch | other => cases hq

theorem asks_afterFault {e : FramingError} {q : Purpose} (hq : 0 < q.hopes t)
    (hquery : p.query? = q.query?) (hwrote : ∀ q, p ≠ wrote none q) :
    Asks t i p (afterFault e q) := by
  refine asks_of_refused hq hquery hwrote ?_
  unfold afterFault
  split <;> simp [concerns, hopes]

/-- Whoever asks a query goes on with that. -/
theorem asking_exec (runtime : Bool) (pick : Nat) (s : Store) (p : Point) (i : CursorId)
    (hp : 0 < p.hopes t) :
    Asks t i p ((p.exec runtime pick s).next ++ (p.exec runtime pick s).spawned) := by
  cases p with
  | register u r =>
    refine asks_of_hopes ?_
    simpa [exec, hopes] using hp
  | recheck u id r =>
    simp only [exec]
    split
    next =>
      have hu : u = t := by
        by_contra hu
        simp [hopes, beq_eq_false_iff_ne.mpr hu] at hp
      exact .inr ⟨⟨⟨id, by rw [← hu]; rfl⟩, fun _ h => by cases h⟩, by simp [hopes]⟩
    next =>
      refine asks_of_hopes ?_
      simpa [hopes, Purpose.hopes] using hp
  | write q p =>
    simp only [exec]
    split
    next => exact asks_of_hopes (by simpa [hopes] using hp)
    next => exact asks_of_refused hp rfl (fun _ h => by cases h) (by simp [concerns, hopes])
  | await m q => exact asks_of_hopes (by simpa [exec, hopes] using hp)
  | feed m q =>
    simp only [exec]
    split
    next => simpa using asks_afterFault hp rfl fun _ h => by cases h
    next =>
      split
      next => simpa using asks_afterFault hp rfl fun _ h => by cases h
      next => exact asks_of_hopes (by simpa [hopes] using hp)
  | flush m q =>
    simp only [exec]
    split
    next => simpa using asks_afterFault hp rfl fun _ h => by cases h
    next => exact asks_of_hopes (by simpa [hopes] using hp)
  | wrote error q =>
    cases error with
    | some e => cases hp
    | none =>
      cases q with
      | query u id =>
        exact .inl (onCursor_each (P := fun q => q.concerns t i = false ∨ 0 < q.hopes t) (by simp))
      | noreply u r => exact .inl fun r hr => by cases hr
      | fetch | other => cases hp
  | check u q =>
    simp only [exec]
    split
    next => exact asks_of_refused hp rfl (fun _ h => by cases h) (by simp [concerns, hopes])
    next => exact asks_of_hopes (by simpa [hopes] using hp)
  | lookUp u q =>
    simp only [exec]
    split
    next => exact asks_of_hopes (by simpa [hopes] using hp)
    next => exact asks_of_refused hp rfl (fun _ h => by cases h) (by simp [concerns, hopes])
  | _ => cases hp

theorem isMine_finish (hk : k.token = t) (r : Connection.Reply) :
    ∀ q ∈ finish k ++ [reply r], q.isMine t i = true := by
  unfold finish
  cases k.exclusive <;> simp [isMine, hk]

theorem isMine_onCursor (f : Cursor → Cursor) {g : Cursor → List Point} (hsole : s.Sole t i)
    (hg : ∀ k, k.token = t → ∀ q ∈ g k, q.isMine t i = true) :
    ∀ q ∈ (s.onCursor i f g).next, q.isMine t i = true := by
  rcases s.onCursor_cases i f g with h | ⟨k, hk, h⟩ <;> rw [h]
  · simp
  · exact hg k ((hsole i k hk).mpr rfl)

/-- The owner of a cursor goes on with it by such sections, as long as the connection is open. -/
theorem isMine_exec (hsole : s.Sole t i) (hp : p.isMine t i = true)
    (ho : (p.exec runtime pick s).store.conn.closed = false) :
    ∀ q ∈ (p.exec runtime pick s).next, q.isMine t i = true := by
  have hopen : s.conn.closed = false := open_of_exec ho
  cases p with
  | read id =>
    obtain rfl := beq_iff_eq.mp hp
    refine isMine_onCursor _ hsole fun k hk => ?_
    rcases afterRead_cases id k with ⟨r, h⟩ | ⟨r, h⟩ | h <;> rw [h]
    · simp [isMine]
    · exact isMine_finish hk r
    · simp [isMine, Purpose.isMine, hk]
  | prime id =>
    obtain rfl := beq_iff_eq.mp hp
    refine isMine_onCursor _ hsole fun k hk => ?_
    rcases afterPrime_cases k with ⟨r, h⟩ | ⟨r, h⟩ <;> rw [h]
    · simp [isMine]
    · exact isMine_finish hk r
  | close id =>
    obtain rfl := beq_iff_eq.mp hp
    refine isMine_onCursor _ hsole fun k hk => ?_
    unfold afterClose
    cases k.inbox.closed <;> cases k.exclusive <;> cases k.inbox.serverDone <;> simp [isMine, hk]
  | leave id =>
    obtain rfl := beq_iff_eq.mp hp
    refine isMine_onCursor _ hsole fun k hk => ?_
    unfold afterLeave
    cases k.inbox.isRunning <;> cases k.exclusive <;> simp [isMine, hk]
  | letGo id =>
    obtain rfl := beq_iff_eq.mp hp
    exact isMine_onCursor _ hsole fun k hk => by simp [isMine]
  | wrote error q =>
    cases q with
    | fetch id =>
      obtain rfl := beq_iff_eq.mp hp
      cases error with
      | none => simp [exec, isMine]
      | some e => exact isMine_onCursor _ hsole fun k hk => isMine_finish hk _
    | other => simp [exec, isMine]
    | query | noreply => cases hp
  | check u q | lookUp u q =>
    obtain ⟨hu, hq⟩ := Bool.and_eq_true_iff.mp hp
    simp only [exec]
    split <;> simp_all [isMine]
  | feed m q | flush m q =>
    simp only [exec, afterFault]
    repeat' split
    all_goals simpa [isMine] using hp
  | shutDown cause closing =>
    cases (closed_of_closes (p := shutDown cause closing) rfl).symm.trans ho
  | write | await | deregister | halt | spawnStop | reply =>
    simp only [exec]
    repeat' split
    all_goals simp_all [isMine, Purpose.isMine]
  | _ => cases hp

theorem concerns_spawned : ∀ q ∈ (p.exec runtime pick s).spawned, q.concerns t i = false := by
  cases p with
  | spawnStop | spawnHangUp =>
    simp only [exec]
    split <;> simp [concerns]
  | read | prime | close | leave | letGo | deliver | reject => simp [exec, Store.onInbox]
  | wrote error q =>
    cases q <;> cases error <;> simp [exec, Store.onInbox]
  | _ =>
    simp only [exec]
    repeat' split
    all_goals simp

theorem incoming_draining (hp : p.isIncoming = true) (hdraining : p.isDraining = false)
    (ho : (p.exec runtime pick s).store.conn.closed = false) :
    ∀ q ∈ (p.exec runtime pick s).next, q.isDraining = false := by
  cases p with
  | deliver | reject =>
    exact onCursor_next (P := fun ps => ∀ q ∈ ps, q.isDraining = false) _ (by simp) fun _ => by simp
  | shutDown cause closing =>
    cases (closed_of_closes (p := shutDown cause closing) rfl).symm.trans ho
  | route f =>
    simp only [exec]
    repeat' split
    all_goals simp [isDraining]
  | deregister => simp [exec]
  | drain | fail => cases hdraining
  | _ => cases hp

end Point

namespace State

variable {s : State} {a : Action} {t : Token} {i : CursorId} {n : Nat}

theorem sole_of_after (h : (s.after a).store.Sole t i) : s.store.Sole t i := by
  intro l k hk
  obtain ⟨k', hk', hages⟩ := ages_after hk a
  rw [← hages.token]
  exact h l k' hk'

theorem sole_of_run {as : List Action} (h : (s.run as).store.Sole t i) : s.store.Sole t i := by
  intro l k hk
  obtain ⟨k', hk', hages⟩ := ages_run hk as
  rw [← hages.token]
  exact h l k' hk'

/-- What is left to do about a cursor on an open connection, and who does it. -/
structure Apart (t : Token) (i : CursorId) (s : State) : Prop where
  there : ∀ τ ∈ s.tasks, τ.cursor = some i → ∃ k, s.conn.cursors[i]? = some k
  own : ∀ τ ∈ s.tasks, τ.cursor = some i → ∀ p ∈ τ.todo, p.isMine t i = true
  others : ∀ τ ∈ s.tasks, τ.cursor ≠ some i →
    ∀ p ∈ τ.todo, p.concerns t i = false ∨ 0 < p.hopes t
  handler : ∀ p ∈ s.handler, p.isDraining = false

theorem apart_start (settings : Settings) : Apart t i (start settings) :=
  ⟨fun _ h => (by cases h), fun _ h => (by cases h), fun _ h => (by cases h), fun _ h => by cases h⟩

theorem isMine_opening {call : Connection.Action} (h : call.cursor? = some i) :
    ∀ p ∈ opening call, p.isMine t i = true := by
  cases call <;> cases h <;> simp [opening, Point.isMine]

theorem concerns_opening {call : Connection.Action} (h : call.cursor? ≠ some i) :
    ∀ p ∈ opening call, p.concerns t i = false := by
  cases call <;> simp [opening, Point.concerns, Purpose.concerns] <;>
    exact fun hi => h (congrArg some hi)

/-- Nothing of this changes but by an action that refuses a query under the token. -/
theorem Apart.after (h : Apart t i s) (hr : Regular s) (hsole : (s.after a).store.Sole t i)
    (ho : (s.after a).conn.closed = false)
    (hasks : ∀ j pick τ p rest, a = .step j pick → s.next? j = some (τ, p, rest) →
      0 < p.hopes t → ∀ q ∈ (p.exec τ.runtime pick s.store).next ++
        (p.exec τ.runtime pick s.store).spawned, q.concerns t i = false ∨ 0 < q.hopes t) :
    Apart t i (s.after a) := by
  have hs := sole_of_after hsole
  refine ⟨fun σ hσ hi => ?_, fun σ hσ hi => ?_, fun σ hσ hi => ?_, fun q hq => ?_⟩
  · obtain ⟨k, hk⟩ : ∃ k, s.conn.cursors[i]? = some k := by
      rcases mem_after_tasks hσ with hmem | ⟨call, runtime, -, hadmits, rfl⟩ |
        ⟨j, pick, τ, p, rest, -, hnext, rfl | rfl⟩ | ⟨τ, hτ, rfl⟩
      · exact h.there σ hmem hi
      · obtain ⟨k, hk, -⟩ := held_of_admits hadmits hi
        exact ⟨k, hk⟩
      · exact h.there τ (mem_of_next? hnext).1 hi
      · cases hi
      · exact h.there τ hτ hi
    obtain ⟨k', hk', -⟩ := ages_after hk a
    exact ⟨k', hk'⟩
  · rcases mem_after_tasks hσ with hmem | ⟨call, runtime, -, -, rfl⟩ |
      ⟨j, pick, τ, p, rest, rfl, hnext, rfl | rfl⟩ | ⟨τ, -, rfl⟩
    · exact h.own σ hmem hi
    · exact isMine_opening hi
    · obtain ⟨hτ, htodo⟩ := mem_of_next? hnext
      have hown := h.own τ hτ hi
      rw [State.after, step_of_next? hnext] at ho
      intro q hq
      rcases List.mem_append.mp hq with hq | hq
      · exact Point.isMine_exec hs (hown p (htodo ▸ List.mem_cons_self)) ho q hq
      · exact hown q (htodo ▸ List.mem_cons_of_mem _ hq)
    · cases hi
    · exact fun q hq => by cases hq
  · rcases mem_after_tasks hσ with hmem | ⟨call, runtime, -, -, rfl⟩ |
      ⟨j, pick, τ, p, rest, rfl, hnext, rfl | rfl⟩ | ⟨τ, -, rfl⟩
    · exact h.others σ hmem hi
    · exact fun q hq => .inl (concerns_opening hi q hq)
    · obtain ⟨hτ, htodo⟩ := mem_of_next? hnext
      have hothers := h.others τ hτ hi
      intro q hq
      rcases List.mem_append.mp hq with hq | hq
      · rcases hothers p (htodo ▸ List.mem_cons_self) with hp | hp
        · rw [State.after, step_of_next? hnext] at ho hsole
          exact Point.concerns_exec hsole hp (fun _ => ho) q (List.mem_append_left _ hq)
        · exact hasks j pick τ p rest rfl hnext hp q (List.mem_append_left _ hq)
      · exact hothers q (htodo ▸ List.mem_cons_of_mem _ hq)
    · exact fun q hq => .inl (Point.concerns_spawned q hq)
    · exact fun q hq => by cases hq
  · rcases mem_after_handler hq with hmem | ⟨event, runtime, -, rfl⟩ |
      ⟨pick, p, rest, rfl, hhandler, hq⟩
    · exact h.handler q hmem
    · cases event <;> rfl
    · have hp : p ∈ s.handler := hhandler ▸ List.mem_cons_self
      rw [State.after, handle, hhandler] at ho
      exact Point.incoming_draining (hr.handler p hp) (h.handler p hp) ho q hq

/-- On an open connection this is so about every cursor, unless its query has been refused. -/
theorem apart_after (hs : Proper n s) (h : Apart t i s) (hsole : (s.after a).store.Sole t i)
    (ho : (s.after a).conn.closed = false) : Apart t i (s.after a) ∨ Dead t i (s.after a) := by
  have hquiet (hasks : ∀ j pick τ p rest, a = .step j pick → s.next? j = some (τ, p, rest) →
      ¬0 < p.hopes t) : Apart t i (s.after a) :=
    h.after hs.regular hsole ho fun j pick τ p rest ha hnext hp =>
      absurd hp (hasks j pick τ p rest ha hnext)
  cases a with
  | step j pick =>
    cases hnext : s.next? j with
    | none =>
      refine .inl (hquiet fun j' pick' τ p rest ha hnext' => ?_)
      cases ha
      cases hnext.symm.trans hnext'
    | some x =>
      obtain ⟨τ, p, rest⟩ := x
      by_cases hp : 0 < p.hopes t
      · rcases p.asking_exec τ.runtime pick s.store i hp with hgoes | ⟨⟨hquery, hwrote⟩, hzero⟩
        · refine .inl (h.after hs.regular hsole ho fun j' pick' τ' p' rest' ha hnext' hp' => ?_)
          cases ha
          cases hnext.symm.trans hnext'
          exact hgoes
        · have hunique := sole_of_after hsole
          exact .inr (dead_of_refused hs pick hnext (fun l k hk => (hunique l k hk).mp) hquery hp
            hwrote hzero)
      · refine .inl (hquiet fun j' pick' τ' p' rest' ha hnext' => ?_)
        cases ha
        cases hnext.symm.trans hnext'
        exact hp
  | _ => exact .inl (hquiet fun j pick τ p rest ha => by cases ha)

theorem apart_run (hs : Proper n s) (h : Apart t i s ∨ Dead t i s) {as : List Action}
    (hn : n + as.countP (·.isQuery) < 2 ^ 64) (hsole : (s.run as).store.Sole t i)
    (ho : (s.run as).conn.closed = false) : Apart t i (s.run as) ∨ Dead t i (s.run as) := by
  induction as generalizing s n with
  | nil => exact h
  | cons a as ih =>
    rw [countP_isQuery_cons, ← Nat.add_assoc] at hn
    refine ih (hs.after a (by omega)) ?_ hn hsole ho
    have hsole' : (s.after a).store.Sole t i := sole_of_run hsole
    have ho' : (s.after a).conn.closed = false := open_of_run ho
    exact h.elim (fun h => apart_after hs h hsole' ho') fun h => .inr (h.after hs a)

theorem Dead.run (h : Dead t i s) (hs : Proper n s) {as : List Action}
    (hn : n + as.countP (·.isQuery) < 2 ^ 64) : Dead t i (s.run as) := by
  induction as generalizing s n with
  | nil => exact h
  | cons a as ih =>
    rw [countP_isQuery_cons, ← Nat.add_assoc] at hn
    exact ih (h.after hs a) (hs.after a (by omega)) hn

/-- Where nobody asks a query any more, none is refused. -/
theorem Apart.run (h : Apart t i s) (hs : Proper n s) (hk : ∃ k, s.conn.cursors[i]? = some k)
    (hhopes : s.hopes t = 0) {as : List Action} (hn : n + as.countP (·.isQuery) < 2 ^ 64)
    (hsole : (s.run as).store.Sole t i) (ho : (s.run as).conn.closed = false) :
    Apart t i (s.run as) := by
  induction as generalizing s n with
  | nil => exact h
  | cons a as ih =>
    rw [countP_isQuery_cons, ← Nat.add_assoc] at hn
    have hsole' : (s.after a).store.Sole t i := sole_of_run hsole
    obtain ⟨k, hk⟩ := hk
    obtain ⟨k', hk', -⟩ := ages_after hk a
    have hnamed : 0 < s.named t := ((sole_of_after hsole') i k hk).mpr rfl ▸ named_of_cursor hk
    refine ih (h.after hs.regular hsole' (open_of_run ho) fun j pick τ p rest ha hnext hp => ?_)
      (hs.after a (by omega)) ⟨k', hk'⟩ ?_ hn hsole ho
    · obtain ⟨hτ, htodo⟩ := mem_of_next? hnext
      have hpos : 0 < s.hopes t := Nat.lt_of_lt_of_le hp
        (le_total (w := fun _ => Point.hopes t) hτ (htodo ▸ List.mem_cons_self))
      rw [hhopes] at hpos
      cases hpos
    · exact Nat.eq_zero_of_le_zero (hhopes ▸ hs.few.hopes_after_le hs.bound a hnamed)

/-- As long as tokens do not wrap around, a cursor has its own. -/
theorem sole_of_cursor {settings : Settings} {as : List Action} {k : Cursor}
    (hfew : as.countP (·.isQuery) < 2 ^ 64)
    (hk : ((start settings).run as).conn.cursors[i]? = some k) :
    ((start settings).run as).store.Sole k.token i := by
  have hs := proper_run settings hfew
  refine fun l m hm => ⟨fun ht => hs.few.eq_of_token hk hm ht, fun hl => ?_⟩
  subst hl
  rw [Option.some.inj (hm.symm.trans hk)]

/-- A cursor that is handed over in the course of a run has never been refused. -/
theorem apart_along {settings : Settings} {as bs : List Action} {k : Cursor}
    (hfew : (as ++ bs).countP (·.isQuery) < 2 ^ 64)
    (hk : ((start settings).run as).conn.cursors[i]? = some k) (hheld : k.held = true)
    (ho : ((start settings).run (as ++ bs)).conn.closed = false) {cs ds : List Action}
    (hcs : as ++ bs = cs ++ ds) : Apart k.token i ((start settings).run cs) := by
  have hsole : ((start settings).run (as ++ bs)).store.Sole k.token i := by
    obtain ⟨k', hk', hages⟩ := ages_run hk bs
    rw [← run_append] at hk'
    exact hages.token ▸ sole_of_cursor hfew hk'
  have hthere (es fs : List Action) (h : as ++ bs = es ++ fs) :
      ((start settings).run es).store.Sole k.token i ∧
        ((start settings).run es).conn.closed = false ∧ es.countP (·.isQuery) < 2 ^ 64 := by
    rw [h, run_append] at hsole ho
    rw [h, List.countP_append] at hfew
    exact ⟨sole_of_run hsole, open_of_run ho, by omega⟩
  have hearly {es fs : List Action} (h : as = es ++ fs) :
      Apart k.token i ((start settings).run es) := by
    obtain ⟨hsole, ho, hn⟩ := hthere es (fs ++ bs) (by rw [h, List.append_assoc])
    refine (apart_run (proper_start settings) (.inl (apart_start settings)) (by omega) hsole
      ho).resolve_right fun hdead => ?_
    rw [List.countP_append, h, List.countP_append] at hfew
    have hlost : Dead k.token i (((start settings).run es).run fs) :=
      hdead.run (proper_run settings hn) (by omega)
    rw [← run_append, ← h] at hlost
    obtain ⟨l, hl, -, hl'⟩ := hlost.cursor
    obtain rfl := Option.some.inj (hl.symm.trans hk)
    cases hl'.symm.trans hheld
  rcases List.append_eq_append_iff.mp hcs with ⟨fs, rfl, -⟩ | ⟨fs, has, -⟩
  · obtain ⟨hsole, ho, hn⟩ := hthere _ _ hcs
    rw [List.countP_append] at hn
    have hs := proper_run settings (Nat.lt_of_le_of_lt (Nat.le_add_right _ _) hn)
    rw [run_append] at hsole ho ⊢
    exact (hearly (List.append_nil as).symm).run hs ⟨k, hk⟩ (hs.handed.held i k hk hheld) (by omega)
      hsole ho
  · exact hearly has

end State
end Reql.Async
