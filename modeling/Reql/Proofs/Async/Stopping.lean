import Reql.Proofs.Async.Stops
import Reql.Proofs.Async.Waiting

/-! Queries that are given up before their end are stopped, once. -/
namespace Reql.Async

namespace Point

/-- Whether a section comes only after a request has been accepted. -/
def isLate : Point → Bool
  | flush .. | wrote none (.query ..) | wrote none (.noreply ..) => true
  | p => p.owner?.isSome

variable {runtime : Bool} {pick : Nat} {s : Store} {p : Point}

/-- Where not even three bytes fit, no request is accepted. -/
theorem exec_isLate (hp : p.isLate = false) (hlimit : s.conn.writer.limit.bytes < 3) :
    ∀ q ∈ (p.exec runtime pick s).next ++ (p.exec runtime pick s).spawned, q.isLate = false := by
  cases p with
  | feed m q =>
    simp only [exec]
    have hroomlimit := s.conn.writer.makeRoom_limit
    cases hroom : s.conn.writer.makeRoom with
    | mk e w =>
      rw [hroom] at hroomlimit
      cases e with
      | some e =>
        simp only [afterFault]
        split <;> simp [isLate, owner?]
      | none =>
        have hlong := Query.three_le_payload m.encoded
        change w.limit = s.conn.writer.limit at hroomlimit
        have hrefused : m.frame.refusal? w.limit ≠ none := by
          unfold Frame.refusal?
          rw [if_pos (by rw [hroomlimit]; exact Nat.lt_of_lt_of_le hlimit hlong)]
          exact fun h => by cases h
        rcases m.frame.encode_eq w.limit w.buffer with ⟨e, -, he⟩ | ⟨hfits, -⟩
        · simp only [he, afterFault]
          split <;> simp [isLate, owner?]
        · exact absurd hfits hrefused
  | read | prime | close | leave | letGo | flush => cases hp
  | deliver | reject => exact onCursor_each fun _ => by simp
  | wrote error q =>
    cases q <;> cases error
    case query.none | noreply.none => cases hp
    case fetch.some id e =>
      refine onCursor_each fun k => ?_
      unfold finish
      cases k.exclusive <;> simp [isLate, owner?]
    all_goals simp [exec, isLate, owner?]
  | _ =>
    simp only [exec]
    repeat' split
    all_goals simp [isLate, owner?]

end Point

namespace State

variable {s : State} {a : Action} {as bs : List Action} {t : Token} {i : CursorId} {k : Cursor}
  {n : Nat}

/-- Nobody has a cursor, and nobody is about to get one. -/
structure Cramped (s : State) : Prop where
  limit : s.conn.writer.limit.bytes < 3
  unheld : ∀ (i : CursorId) (k : Cursor), s.conn.cursors[i]? = some k → k.held = false
  early : Each (fun p => p.isLate = false) s

theorem isLate_opening {call : Connection.Action} :
    ∀ q ∈ opening call, q.isLate = true → ∃ i, call.cursor? = some i := by
  cases call <;> simp [opening, Point.isLate, Point.owner?, Connection.Action.cursor?]

theorem Cramped.after (h : Cramped s) (hr : Regular s) (a : Action) : Cramped (s.after a) := by
  refine ⟨by rw [limit_after]; exact h.limit, fun i k hk => ?_, ?_⟩
  · have hearly {p : Point} (hp : s.section? a = some p) : p.isLate = false := by
      cases hincoming : p.isIncoming with
      | true => cases p <;> first | rfl | cases hincoming
      | false =>
        obtain ⟨j, pick, τ, rest, -, hnext⟩ := step_of_section? hr hp hincoming
        exact h.early.of_next? hnext
    refine Bool.eq_false_iff.mpr fun hheld => ?_
    rcases cursor_of_after hk with ⟨l, hl, rfl | ⟨p, hp, ht⟩⟩ | ⟨-, p, hp, hadded⟩
    · rw [h.unheld i _ hl] at hheld
      cases hheld
    · rcases ht.held_of hheld with hheld | ⟨u, rfl⟩
      · rw [h.unheld i l hl] at hheld
        cases hheld
      · cases hearly hp
    · cases p with
      | register u r =>
        obtain rfl := Option.some.inj hadded
        cases hheld
      | wrote error q =>
        cases error <;> cases q <;> cases hadded
        cases hearly hp
      | _ => cases hadded
  · refine h.early.after a (fun p hp => hp) (fun call runtime _ hadmits q hq => ?_)
      fun j pick τ p rest _ hnext => Point.exec_isLate (h.early.of_next? hnext) h.limit
    refine Bool.eq_false_iff.mpr fun hlate => ?_
    obtain ⟨i, hi⟩ := isLate_opening q hq hlate
    obtain ⟨k, hk, hheld⟩ := held_of_admits hadmits hi
    rw [h.unheld i k hk] at hheld
    cases hheld

/-- Where a cursor is given up, every request without a term fits. -/
theorem three_le_of_parts {settings : Settings} (h : ((start settings).run as).Parts i a) :
    3 ≤ ((start settings).run as).conn.writer.limit.bytes := by
  refine Nat.le_of_not_lt fun hlimit => ?_
  have hlimit' : (start settings).conn.writer.limit.bytes < 3 := by rwa [limit_run] at hlimit
  have hstart : Cramped (start settings) := by
    refine ⟨hlimit', fun i k hk => ?_, fun τ hτ => by cases hτ⟩
    rw [cursor_start] at hk
    cases hk
  have hrun : Regular ((start settings).run as) ∧ Cramped ((start settings).run as) :=
    run_invariant (P := fun s => Regular s ∧ Cramped s) ⟨regular_start settings, hstart⟩
      fun bs a cs _ hs => ⟨hs.1.after a, hs.2.after hs.1 a⟩
  rcases h with h | h
  · obtain ⟨j, pick, τ, rest, -, hnext⟩ := step_of_section? hrun.1 h rfl
    cases hrun.2.early.of_next? hnext
  · obtain ⟨j, pick, τ, rest, -, hnext⟩ := step_of_section? hrun.1 h rfl
    cases hrun.2.early.of_next? hnext

theorem parts_iff : s.Parts i a ↔ (s.section? a).bind (Point.parts? true) = some i := by
  unfold Parts
  cases s.section? a with
  | none => simp
  | some p => cases p <;> simp [Point.parts?]

instance (s : State) (i : CursorId) (a : Action) : Decidable (s.Parts i a) :=
  decidable_of_iff _ parts_iff.symm

/-- Whether a runtime is at hand for the computation that goes on. -/
def hasRuntime (s : State) : Action → Bool
  | .step j _ => s.tasks[j]?.any (·.runtime)
  | _ => true

/-- Nothing is left to do that would stop the query under a token or close the connection. -/
def Settled (t : Token) (s : State) : Prop :=
  ∀ τ ∈ s.tasks, ∀ p ∈ τ.todo,
    p.closes = false ∧ p.stops t τ.runtime = 0 ∧ p.flushes t = 0

theorem Settled.of_idle (h : Idle s) (t : Token) : Settled t s := by
  intro τ hτ p hp
  rw [h τ hτ] at hp
  cases hp

theorem Settled.not_doomed (h : Settled t s) (ho : s.conn.closed = false) : ¬Doomed s := by
  rintro (hc | ⟨τ, hτ, p, hp, hcloses⟩)
  · rw [ho] at hc
    cases hc
  · rw [(h τ hτ p hp).1] at hcloses
    cases hcloses

/-- A cursor that is given up has its query stopped if that runs, and if a computation for it can be
started. -/
theorem givesUp_of_parts (hr : Regular s) (ha : s.Parts i a) (hk : s.conn.cursors[i]? = some k)
    (hexclusive : k.exclusive = false)
    (hruntime : s.section? a = some (.leave i) → s.hasRuntime a = true) :
    s.givesUp k.token a = k.inbox.isRunning := by
  have hstoppable : s.store.isStoppable k.token i = k.inbox.isRunning := by
    unfold Store.isStoppable
    rw [show s.store.conn.cursors[i]? = some k from hk]
    simp [hexclusive]
  rcases ha with h | h
  · obtain ⟨j, pick, τ, rest, rfl, hnext⟩ := step_of_section? hr h rfl
    simp only [givesUp, hnext, Option.any_some, Point.parts?, hstoppable]
  · have hτ := hruntime h
    obtain ⟨j, pick, τ, rest, rfl, hnext⟩ := step_of_section? hr h rfl
    rw [hasRuntime, (next?_eq_some.mp hnext).1, Option.any_some] at hτ
    simp only [givesUp, hnext, Option.any_some, Point.parts?, hτ, if_true, hstoppable]

theorem parts_of_givesUp (h : s.givesUp t a = true) : ∃ i k, s.Parts i a ∧
    s.conn.cursors[i]? = some k ∧ k.token = t ∧ k.exclusive = false ∧ k.inbox.isRunning = true := by
  cases a with
  | step j pick =>
    cases hnext : s.next? j with
    | none => simp [givesUp, hnext] at h
    | some x =>
      obtain ⟨τ, p, rest⟩ := x
      simp only [givesUp, hnext, Option.any_some, Option.any_eq_true] at h
      obtain ⟨id, hid, hstoppable⟩ := h
      obtain ⟨k, hk, hrunning⟩ := (Option.any_eq_true _ _).mp hstoppable
      simp only [Bool.and_eq_true, beq_iff_eq, Bool.not_eq_true'] at hrunning
      refine ⟨id, k, ?_, hk, hrunning.1.1, hrunning.1.2, hrunning.2⟩
      have hp : s.section? (.step j pick) = some p := by rw [section?, hnext]; rfl
      unfold Parts
      rw [hp]
      cases p with
      | close id' => exact .inl (by rw [Option.some.inj hid])
      | leave id' =>
        simp only [Point.parts?] at hid
        split at hid <;> cases hid
        exact .inr rfl
      | _ => cases hid
  | _ => cases h

/-- What has been accepted and not yet written is about to be written. -/
def Prepared (t : Token) (s : State) : Prop :=
  s.store.accepted.countP (·.isStop t) ≤ s.total fun _ => Point.flushes t

theorem Prepared.after (h : Prepared t s) (hr : Regular s)
    (ha : ∀ l, a = .abandon l → ¬s.carries t l) :
    Prepared t (s.after a) ∨ Doomed (s.after a) := by
  unfold Prepared at h ⊢
  cases a with
  | begin call runtime =>
    left
    rcases s.begin_cases runtime call with hs | ⟨-, hs⟩ | ⟨c, rfl, -, hs⟩ | ⟨reason, -, hs⟩ |
      ⟨event, -, hs⟩ <;> rw [after, hs]
    case inr.inl =>
      rw [total_launch]
      exact Nat.le_add_right_of_le h
    all_goals exact h
  | step j pick =>
    cases hnext : s.next? j with
    | none =>
      rw [after, step, hnext]
      exact .inl h
    | some x =>
      obtain ⟨τ, p, rest⟩ := x
      rw [after, step_of_next? hnext]
      have htotal := total_advance (t := p.exec τ.runtime pick s.store) (fun _ => Point.flushes t)
        hnext
      rcases Point.exec_accepted t τ.runtime pick s.store p with hle | hnil | hcloses
      · left
        dsimp only [advance] at hle htotal ⊢
        omega
      · left
        dsimp only [advance]
        rw [hnil]
        exact Nat.zero_le _
      · exact .inr (doomed_advance hnext (.inr hcloses))
  | handle pick =>
    left
    rcases s.handle_cases pick with hs | ⟨p, rest, u, hhandler, rfl, hs⟩ <;> rw [after, hs]
    · exact h
    · have hp := hr.handler p (hhandler ▸ List.mem_cons_self)
      have hkept := Point.incoming_sparesWriter true pick s.store hp
      dsimp only [total]
      rw [hkept.accepted]
      exact h
  | abandon j =>
    left
    have hzero : ∀ τ, s.tasks[j]? = some τ → ∀ p ∈ τ.todo, p.flushes t = 0 := by
      intro τ hτ p hp
      refine Nat.eq_zero_of_not_pos fun hpos => ha j rfl ⟨τ, hτ, p, hp, ?_⟩
      exact Nat.add_pos_right _ hpos
    rw [after, abandon_store, total_abandon fun τ hτ _ => hzero τ hτ]
    exact h
  | collect =>
    left
    rcases s.collect_cases with hs | hs <;> rw [after, hs] <;> exact h

/-- Without a cursor given up, requests to stop do not become more. -/
theorem stops_run_le (hr : Regular s) (hcalls : ∀ runtime, .begin (.stop t) runtime ∉ as)
    (hkept : s.Never (fun s' a => s'.givesUp t a = true) as) :
    (s.run as).stops t ≤ s.stops t := by
  have hrun : Regular (s.run as) ∧ (s.run as).stops t ≤ s.stops t := by
    refine run_invariant (P := fun s' => Regular s' ∧ s'.stops t ≤ s.stops t) ⟨hr, Nat.le_refl _⟩
      fun bs a cs has h => ⟨h.1.after a, Nat.le_trans ?_ h.2⟩
    have hle := stops_after_le h.1 (a := a) (t := t) fun runtime ha =>
      hcalls runtime (by rw [has, ha]; exact List.mem_append_right _ List.mem_cons_self)
    rwa [Bool.eq_false_iff.mpr (never_iff.mp hkept bs a cs has)] at hle
  exact hrun.2

/-- Whether a computation is given up that has yet to write a request to stop. -/
def LosesStop (t : Token) (s : State) (a : Action) : Prop :=
  ∃ l, a = .abandon l ∧ s.carries t l

theorem le_stops_run (hr : Regular s) (hlimit : 3 ≤ s.conn.writer.limit.bytes)
    (hkept : s.Never (·.LosesStop t ·) as) (hprepared : Prepared t s) :
    (s.stops t ≤ (s.run as).stops t ∧ Prepared t (s.run as)) ∨ Doomed (s.run as) := by
  have hrun : Regular (s.run as) ∧
      ((s.stops t ≤ (s.run as).stops t ∧ Prepared t (s.run as)) ∨ Doomed (s.run as)) := by
    refine run_invariant (P := fun s' => Regular s' ∧
      ((s.stops t ≤ s'.stops t ∧ Prepared t s') ∨ Doomed s')) ⟨hr, .inl ⟨Nat.le_refl _, hprepared⟩⟩
      fun bs a cs has h => ⟨h.1.after a, ?_⟩
    rcases h.2 with ⟨hle, hprepared⟩ | hdoomed
    · have ha (l : TaskId) (hl : a = .abandon l) : ¬(s.run bs).carries t l :=
        fun hcarries => never_iff.mp hkept bs a cs has ⟨l, hl, hcarries⟩
      rcases le_stops_after h.1 (by rwa [limit_run]) ha with hnext | hdoomed
      · exact (hprepared.after h.1 ha).imp_left fun hp =>
          ⟨Nat.le_trans hle (Nat.le_trans (Nat.le_add_right _ _) hnext), hp⟩
      · exact .inr hdoomed
    · exact .inr (hdoomed.after h.1 a)
  exact hrun.2

/-- Once nothing is left to do about them, requests to stop have been written. -/
theorem written_of_settled (h : Settled t s) (hprepared : Prepared t s) :
    s.conn.written.countP (·.isStop t) = s.stops t := by
  have hzero (w : Bool → Point → Nat) (hw : ∀ τ ∈ s.tasks, ∀ p ∈ τ.todo, w τ.runtime p = 0) :
      s.total w = 0 := by
    refine Nat.eq_zero_of_not_pos fun hpos => ?_
    obtain ⟨τ, hτ, p, hp, hpos⟩ := total_pos hpos
    rw [hw τ hτ p hp] at hpos
    exact Nat.lt_irrefl 0 hpos
  have haccepted : s.store.accepted.countP (·.isStop t) = 0 := by
    refine Nat.eq_zero_of_le_zero (Nat.le_trans hprepared (Nat.le_of_eq ?_))
    exact hzero _ fun τ hτ p hp => (h τ hτ p hp).2.2
  rw [stops, Store.stops, List.countP_append, haccepted,
    hzero _ fun τ hτ p hp => (h τ hτ p hp).2.1]
  rfl

/-- What a run assumes of its cursors, seen from its end. -/
theorem eq_of_token_run {settings : Settings} (bs : List Action)
    (hfew : (as ++ bs).countP (·.isQuery) < 2 ^ 64)
    (hk : ((start settings).run (as ++ bs)).conn.cursors[i]? = some k) {j : CursorId} {l : Cursor}
    (hl : ((start settings).run as).conn.cursors[j]? = some l) (ht : l.token = k.token) :
    j = i := by
  obtain ⟨l', hl', hages⟩ := ages_run hl bs
  rw [← run_append] at hl'
  have hproper := (proper_start settings).run (by rwa [Nat.zero_add])
  exact hproper.few.eq_of_token hk hl' (hages.token.trans ht)

theorem countP_isQuery_le (as bs : List Action) :
    as.countP (·.isQuery) ≤ (as ++ bs).countP (·.isQuery) := by
  rw [List.countP_append]
  exact Nat.le_add_right _ _

/-- A cursor that has been given up is closed. -/
theorem closed_of_parts (hk : s.conn.cursors[i]? = some k) (ha : s.Parts i a) :
    ∃ k', (s.after a).conn.cursors[i]? = some k' ∧ Ages k k' ∧ k'.inbox.closed = true := by
  obtain ⟨k', hk', hages⟩ := ages_after hk a
  refine ⟨k', hk', hages, ?_⟩
  rcases ha with hp | hp
  · obtain ⟨runtime, pick, hs⟩ := after_of_section? hp
    rw [conn, hs] at hk'
    obtain rfl := Option.some.inj (hk'.symm.trans (onCursor_cursor hk))
    dsimp only
    split
    next hc => exact hc
    next => rfl
  · obtain ⟨runtime, pick, hs⟩ := after_of_section? hp
    rw [conn, hs] at hk'
    obtain rfl := Option.some.inj (hk'.symm.trans (onCursor_cursor hk))
    rfl

section

variable {settings : Settings} (hk : ((start settings).run as).conn.cursors[i]? = some k)

include hk

/-- Giving the cursor up stops its query only if it runs. -/
theorem stops_of_parts_le (hfew : as.countP (·.isQuery) < 2 ^ 64)
    (hcalls : ∀ runtime, a ≠ .begin (.stop k.token) runtime)
    (hzero : ((start settings).run as).stops k.token = 0) :
    (((start settings).run as).after a).stops k.token ≤ k.inbox.isRunning.toNat := by
  have hle := stops_after_le ((regular_start settings).run as) (a := a) (t := k.token) hcalls
  rw [hzero, Nat.zero_add] at hle
  refine Nat.le_trans hle ?_
  cases hgives : ((start settings).run as).givesUp k.token a with
  | false => exact Nat.zero_le _
  | true =>
    obtain ⟨j, l, -, hl, ht, -, hrunning⟩ := parts_of_givesUp hgives
    obtain rfl : j = i := eq_of_token_run [] (by rwa [List.append_nil])
      (by rwa [List.append_nil]) hl ht
    obtain rfl := Option.some.inj (hk.symm.trans hl)
    rw [hrunning]

/-- A cursor that has been given up is not given up again. -/
theorem stops_behind_le (hfew : (as ++ a :: bs).countP (·.isQuery) < 2 ^ 64)
    (ha : ((start settings).run as).Parts i a)
    (hcalls : ∀ runtime, .begin (.stop k.token) runtime ∉ bs) :
    ((((start settings).run as).after a).run bs).stops k.token ≤
      (((start settings).run as).after a).stops k.token := by
  obtain ⟨k₁, hk₁, hages, hclosed⟩ := closed_of_parts hk ha
  refine stops_run_le (((regular_start settings).run as).after a) hcalls
    (never_iff.mpr fun cs b ds hbs hgives => ?_)
  obtain ⟨j, l, -, hl, ht, -, hrunning⟩ := parts_of_givesUp hgives
  obtain ⟨k₂, hk₂, hages'⟩ := ages_run hk₁ cs
  obtain ⟨k₃, hk₃, hages''⟩ := ages_run hk₂ (b :: ds)
  have hfinal :
      ((start settings).run ((as ++ a :: cs) ++ b :: ds)).conn.cursors[i]? = some k₃ := by
    rw [run_append, run_append, run_cons]
    exact hk₃
  have hlj : ((start settings).run (as ++ a :: cs)).conn.cursors[j]? = some l := by
    rw [run_append, run_cons]
    exact hl
  obtain rfl : j = i := by
    refine eq_of_token_run _ ?_ hfinal hlj ?_
    · rwa [hbs, ← List.cons_append, ← List.append_assoc] at hfew
    · rw [ht, ((hages.trans hages').trans hages'').token]
  obtain rfl := Option.some.inj (hk₂.symm.trans hl)
  rw [Inbox.isRunning, hages'.closed hclosed] at hrunning
  cases hrunning

/-- Giving the cursor up stops its query if it runs, unless the connection is about to be closed. -/
theorem le_stops_of_parts (ha : ((start settings).run as).Parts i a)
    (hexclusive : k.exclusive = false)
    (hruntime : ((start settings).run as).section? a = some (.leave i) →
      ((start settings).run as).hasRuntime a = true)
    (hzero : ((start settings).run as).stops k.token = 0)
    (hdoomed : ¬Doomed (((start settings).run as).after a)) :
    k.inbox.isRunning.toNat ≤ (((start settings).run as).after a).stops k.token ∧
      Prepared k.token (((start settings).run as).after a) := by
  have hr := (regular_start settings).run as
  have hprepared : Prepared k.token ((start settings).run as) := by
    have hnone : ((start settings).run as).store.stops k.token = 0 :=
      Nat.eq_zero_of_le_zero (hzero ▸ Nat.le_add_right _ _)
    refine Nat.le_trans (Nat.le_of_eq ?_) (Nat.zero_le _)
    rw [Store.stops, List.countP_append] at hnone
    omega
  have hstep (l : TaskId) (hl : a = .abandon l) : ¬((start settings).run as).carries k.token l := by
    subst hl
    rcases ha with h | h <;> cases h
  refine ⟨?_, (hprepared.after hr hstep).resolve_right hdoomed⟩
  have hle := (le_stops_after hr (three_le_of_parts ha) hstep).resolve_right hdoomed
  rwa [hzero, Nat.zero_add, givesUp_of_parts hr ha hk hexclusive hruntime] at hle

variable (hfirst : (start settings).Never (·.Parts i ·) as)

include hfirst

/-- Before a cursor is given up, nothing stops its query. -/
theorem stops_before (hfew : as.countP (·.isQuery) < 2 ^ 64)
    (hcalls : ∀ runtime, .begin (.stop k.token) runtime ∉ as) :
    ((start settings).run as).stops k.token = 0 := by
  refine Nat.eq_zero_of_le_zero (stops_run_le (regular_start settings) hcalls
    (never_iff.mpr fun cs b ds has hgives => ?_))
  obtain ⟨j, l, hparts, hl, ht, -⟩ := parts_of_givesUp hgives
  subst has
  obtain rfl := eq_of_token_run _ hfew hk hl ht
  exact never_iff.mp hfirst cs b ds rfl hparts

/-- A query that has only been sent batches runs until its cursor is given up. -/
theorem running_of_batches (hfew : as.countP (·.isQuery) < 2 ^ 64)
    (ha : ((start settings).run as).Parts i a) (hdoomed : ¬Doomed ((start settings).run as))
    (hasked : ∃ cs ds l, as = cs ++ ds ∧
      ((start settings).run cs).conn.cursors[i]? = some l ∧ l.registered = true)
    (hbatches : ∀ f runtime, .begin (.report (.frame f)) runtime ∈ as → f.token = k.token →
      f.isBatch = true) : k.inbox.isRunning = true := by
  have hlimit := three_le_of_parts ha
  rw [limit_run] at hlimit
  have hsustains (cs : List Action) (b : Action) (ds : List Action) (has : as = cs ++ b :: ds) :
      Sustains k.token i ((start settings).run cs) b := by
    subst has
    refine ⟨fun l hl hnone => ?_, fun j l hl ht => eq_of_token_run _ hfew hk hl ht,
      never_iff.mp hfirst cs b ds rfl, fun f runtime hb ht => ?_⟩
    · have hlast : ((start settings).run (cs ++ [b])).conn.cursors[i]? = some l := by
        rw [run_append]
        exact hl
      obtain ⟨k', hk', hages⟩ := ages_run hlast ds
      rw [← run_append, List.append_assoc] at hk'
      obtain rfl := Option.some.inj (hk.symm.trans hk')
      refine ⟨hages.token.symm, ?_⟩
      obtain ⟨cs₀, ds₀, l₀, has, hl₀, hregistered⟩ := hasked
      rw [List.append_cons] at has
      rcases List.append_eq_append_iff.mp has with ⟨es, rfl, -⟩ | ⟨es, hes, -⟩
      · obtain ⟨l', hl', hages'⟩ := ages_run hlast es
        rw [← run_append] at hl'
        obtain rfl := Option.some.inj (hl'.symm.trans hl₀)
        exact hages'.registered hregistered
      · rcases List.eq_nil_or_concat es with rfl | ⟨es, e, rfl⟩
        · rw [List.append_nil] at hes
          rw [← hes] at hl₀
          obtain rfl := Option.some.inj (hlast.symm.trans hl₀)
          exact hregistered
        · rw [List.concat_eq_append, ← List.append_assoc] at hes
          obtain ⟨rfl, -⟩ := List.append_inj' hes rfl
          obtain ⟨l', hl', -⟩ := ages_run hl₀ es
          rw [← run_append, hnone] at hl'
          cases hl'
    · exact hbatches f runtime (by rw [hb]; exact List.mem_append_right _ List.mem_cons_self) ht
  have hpending := (pending_start settings).run (t := k.token) (i := i) (proper_start settings)
    (by rwa [Nat.zero_add]) hsustains hlimit
  rcases hpending with h | h | h
  · exact absurd h hdoomed
  · have hregular := (regular_start settings).run as
    rcases ha with hp | hp
    · obtain ⟨j, pick, τ, rest, -, hnext⟩ := step_of_section? hregular hp rfl
      exact absurd rfl (h.owner.of_next? hnext)
    · obtain ⟨j, pick, τ, rest, -, hnext⟩ := step_of_section? hregular hp rfl
      exact absurd rfl (h.owner.of_next? hnext)
  · exact (h.cursor k hk).inbox.isRunning

end

/-- When its cursor is given up, the query is stopped once if it runs, and not at all if it does
not. It runs as long as the server has sent nothing but batches. -/
theorem stopped_on_parting (settings : Settings) (as bs : List Action) (a : Action) (i : CursorId)
    (k : Cursor) (hk : ((start settings).run as).conn.cursors[i]? = some k)
    (hexclusive : k.exclusive = false)
    (hfirst : (start settings).Never (·.Parts i ·) as)
    (ha : ((start settings).run as).Parts i a)
    (hfew : (as ++ a :: bs).countP (·.isQuery) < 2 ^ 64)
    (hcalls : ∀ runtime, .begin (.stop k.token) runtime ∉ as ++ a :: bs) :
    let s := (start settings).run as
    let s' := (start settings).run (as ++ a :: bs)
    s'.store.stops k.token ≤ k.inbox.isRunning.toNat ∧
    (s'.conn.closed = false → s'.Settled k.token →
      ((s.section? a = some (.leave i) → s.hasRuntime a = true) →
        (s.after a).Never (·.LosesStop k.token ·) bs →
        s'.conn.written.countP (·.isStop k.token) = k.inbox.isRunning.toNat) ∧
      ((∃ cs ds l, as = cs ++ ds ∧
          ((start settings).run cs).conn.cursors[i]? = some l ∧ l.registered = true) →
        (∀ f runtime, .begin (.report (.frame f)) runtime ∈ as → f.token = k.token →
          f.isBatch = true) →
        k.inbox.isRunning = true)) := by
  intro s s'
  have hr : Regular (s.after a) := ((regular_start settings).run as).after a
  have hs' : s' = (s.after a).run bs := by
    change (start settings).run (as ++ a :: bs) = _
    rw [run_append, run_cons]
  have hfew' : as.countP (·.isQuery) < 2 ^ 64 := Nat.lt_of_le_of_lt (countP_isQuery_le _ _) hfew
  have hzero : s.stops k.token = 0 :=
    stops_before hk hfirst hfew' fun runtime h => hcalls runtime (List.mem_append_left _ h)
  have hafter : (s.after a).stops k.token ≤ k.inbox.isRunning.toNat :=
    stops_of_parts_le hk hfew' (fun runtime h => hcalls runtime
      (by rw [h]; exact List.mem_append_right _ List.mem_cons_self)) hzero
  have hbehind : s'.stops k.token ≤ (s.after a).stops k.token := by
    rw [hs']
    exact stops_behind_le hk hfew ha fun runtime h => hcalls runtime
      (List.mem_append_right _ (List.mem_cons_of_mem _ h))
  have hle : s'.stops k.token ≤ k.inbox.isRunning.toNat := Nat.le_trans hbehind hafter
  refine ⟨Nat.le_trans (Nat.le_add_right _ _) hle, fun ho hsettled => ?_⟩
  have hnot : ¬Doomed s' := hsettled.not_doomed ho
  have hdoomed (h : Doomed (s.after a)) : False := hnot (hs' ▸ h.run hr bs)
  refine ⟨fun hruntime hkept => ?_, fun hasked hbatches => ?_⟩
  · obtain ⟨hge, hprepared⟩ := le_stops_of_parts hk ha hexclusive hruntime hzero hdoomed
    have hlimit : 3 ≤ (s.after a).conn.writer.limit.bytes := by
      rw [limit_after]
      exact three_le_of_parts ha
    rcases le_stops_run hr hlimit hkept hprepared with h | h
    · rw [← hs'] at h
      rw [written_of_settled hsettled h.2]
      exact Nat.le_antisymm hle (Nat.le_trans hge h.1)
    · exact absurd (hs' ▸ h) hnot
  · exact running_of_batches hk hfirst hfew' ha
      (fun h => hdoomed (h.after ((regular_start settings).run as) a)) hasked hbatches

/-- A query that is closed after its first batch. -/
theorem stopped_on_parting_batch :
    let batch : Frame := ⟨1, Bytes.ofString "\x7b\"t\":3,\"r\":[\"a\"]\x7d"⟩
    let as : List Action :=
      .begin (.query .anything default false) true :: .replicate 9 (.step 0 0) ++
      .begin (.report (.frame batch)) true :: .replicate 2 (.handle 0) ++
      .begin (.next 0) true :: .replicate 2 (.step 1 0) ++ [.begin (.closeCursor 0) true]
    let bs : List Action := .replicate 8 (.step 2 0)
    ((start default).run as).Parts 0 (.step 2 0) ∧
      ((start default).run (as ++ .step 2 0 :: bs)).conn.written.countP (·.isStop 1) = 1 := by
  intro batch as bs
  have hk : ((start default).run as).conn.cursors[0]? =
      some ⟨1, .anything, false, ⟨[], false, false, false, false, none, none⟩, true, true⟩ := by
    decide +kernel
  have hparts : ((start default).run as).Parts 0 (.step 2 0) := by decide +kernel
  have hidle : Idle ((start default).run (as ++ .step 2 0 :: bs)) := by decide +kernel
  have hcalls : ∀ runtime, .begin (.stop 1) runtime ∉ as ++ .step 2 0 :: bs := by decide +kernel
  have hkept : (((start default).run as).after (.step 2 0)).Never (·.LosesStop 1 ·) bs :=
    never_of_kept (fun _ _ ⟨l, hl, _⟩ => ⟨l, hl⟩) (by decide)
  obtain ⟨-, hrest⟩ := stopped_on_parting default as bs (.step 2 0) 0 _ hk rfl (by decide +kernel)
    hparts (by decide +kernel) hcalls
  obtain ⟨hrunning, -⟩ := hrest (by decide +kernel) (.of_idle hidle 1)
  exact ⟨hparts, hrunning (fun _ => by decide +kernel) hkept⟩

/-- After a payload that is no answer, giving a cursor up does not stop its query, although the
server has not finished it. -/
theorem garbled_unstopped :
    let garbled : Frame := ⟨1, []⟩
    let as : List Action :=
      .begin (.query .anything default false) true :: .replicate 9 (.step 0 0) ++
      .begin (.report (.frame garbled)) true :: .replicate 3 (.handle 0) ++
      .begin (.next 0) true :: .replicate 3 (.step 1 0)
    let closed := as ++ .begin (.closeCursor 0) true :: .replicate 9 (.step 2 0)
    let dropped := as ++ .begin (.dropCursor 0) true :: .replicate 12 (.step 2 0)
    (∀ r, Response.decode 1 garbled.payload ≠ .ok r) ∧
      ∀ bs ∈ [closed, dropped], Idle ((start default).run bs) ∧
        ((start default).run bs).conn.closed = false ∧
        ((start default).run bs).conn.writer.Works ∧
        ((start default).run bs).conn.written.countP (·.isStop 1) = 0 := by
  intro garbled as closed dropped
  refine ⟨fun r hr => ?_, fun bs hbs => ?_⟩
  · have hrefused : (Response.decode 1 garbled.payload).isOk = false := by decide +kernel
    rw [hr] at hrefused
    cases hrefused
  · rcases List.mem_pair.mp hbs with rfl | rfl
    all_goals
      refine ⟨by decide +kernel, by decide +kernel, ?_, by decide +kernel⟩
      exact ⟨by decide +kernel, by decide +kernel⟩

end State
end Reql.Async
