import Reql.Proofs.Connection.Numbering
import Reql.Proofs.Connection.Orderly
import Reql.Proofs.Cursor.Registration

/-! The tokens under which a connection waits for answers: none is kept too long, none is lost. -/
namespace Reql.Connection

open Cursor (Event awaits)

/-- In a run, a request under a token was written that wants an answer, and it has the cursor at a
place. -/
def Issued (c : Connection) (as : List Action) (i : CursorId) (t : Token) : Prop :=
  ∃ as₁ a as₂ q, as = as₁ ++ a :: as₂ ∧ a.request? (c.run as₁) = some q ∧ q.token = t ∧
    a.isNoreply = false ∧ ((c.run as₁).act a).1 = .done none ∧
    ((c.run as₁).after a).written = (c.run as₁).written ++ [q] ∧ (c.run as₁).cursors.length = i

variable {c : Connection} {as as₁ as₂ : List Action} {a : Action} {i : CursorId} {k : Cursor}
  {t : Token} {s : Settings}

/-- The connection is closed if a cursor was lost. -/
theorem Orderly.closed_of_lost (h : Orderly c) {e : ClientError} (he : .lost e ∈ c.history i as) :
    (c.run as).closed = true := by
  induction as generalizing c with
  | nil => cases he
  | cons a as ih =>
    rcases List.mem_append.mp he with he | he
    · refine closed_run as ?_
      cases arises_of_mem he with
      | next k v hk hv hread => cases hread
      | frame f k v hk hr ht hv harr => cases harr
      | lost _ _ hloses =>
        rcases hloses.cases (h.sound i) with ⟨h', -⟩ | ⟨-, hc⟩
        · cases h'
        · exact hc
    · exact ih (h.after a) he

/-- A cursor is displaced only if another one has its token or is about to get it. -/
theorem Orderly.not_displaced (h : Orderly c)
    (htokens : ∀ bs cs, as = bs ++ cs → ((c.run bs).cursors.map (·.token)).Nodup ∧
      (c.run bs).tokens.next ∉ (c.run bs).cursors.map (·.token)) :
    .displaced ∉ c.history i as := by
  induction as generalizing c with
  | nil => exact List.not_mem_nil
  | cons a as ih =>
    intro hd
    rcases List.mem_append.mp hd with hd | hd
    · obtain ⟨hnodup, hfresh⟩ := htokens [] (a :: as) rfl
      cases arises_of_mem hd with
      | next k v hk hv hread => cases hread
      | frame f k v hk hr ht hv harr => cases harr
      | displaced _ hloses =>
        rcases hloses.cases (h.sound i) with ⟨-, k, hk, hend⟩ | ⟨⟨e, he⟩, -⟩
        · have hmem : k.token ∈ c.cursors.map (·.token) :=
            List.mem_map_of_mem (List.mem_of_getElem? hk)
          have hother (id : CursorId) (ha : a.cursor? = some id) (l : Cursor)
              (hl : c.cursors[id]? = some l) (ht : l.token = k.token) : False := by
            have hi : (c.cursors.map (·.token))[i]? = some k.token := by
              rw [List.getElem?_map, hk, Option.map_some]
            have hid : (c.cursors.map (·.token))[id]? = some k.token := by
              rw [List.getElem?_map, hl, Option.map_some, ht]
            have hlt := (List.getElem?_eq_some_iff.mp hid).choose
            have heq := (List.getElem?_inj hlt hnodup).mp (hid.trans hi.symm)
            exact hloses.1 (ha.trans (congrArg some heq))
          cases a with
          | query | noreplyWait => exact hfresh (hend ▸ hmem)
          | next id | prime id | closeCursor id | dropCursor id =>
            obtain ⟨l, hl, ht⟩ := hend
            exact hother id rfl l hl ht
          | _ => cases hend
        · cases he
    · refine ih (h.after a) (fun bs cs hs => ?_) hd
      rw [hs] at htokens
      exact htokens (a :: bs) cs rfl

/-- The history of a cursor begins when it is asked for. -/
theorem history_of_asked {k₀ : Cursor} {c₁ : Connection} {E : Token → Prop} {O : CursorId → Prop}
    (ha : Asked E O ((start s).run as₁) a k₀ c₁) (hi : ((start s).run as₁).cursors.length = i) :
    (start s).history i (as₁ ++ a :: as₂) =
      .asked a.isNoreply :: (((start s).run as₁).after a).history i as₂ := by
  have hnone : ((start s).run as₁).cursors[i]? = none :=
    List.getElem?_eq_none_iff.mpr (Nat.le_of_eq hi)
  have hnil : (start s).history i as₁ = [] := by
    rcases history_of_none as₁ (start_none s i) with ⟨h, -⟩ | ⟨bs, b, cs, k, d, rfl, hlen, hb, -⟩
    · exact h
    · have hk : (((start s).run bs).after b).cursors[i]? = some k := hlen ▸ hb.getElem?_length
      obtain ⟨l, hl, -⟩ := steps_run cs hk hb.new.sound
      rw [run_append, run_cons, hl] at hnone
      cases hnone
  have hevents : ((start s).run as₁).eventsAt a i = [.asked a.isNoreply] := by
    have hk := ha.getElem?_length
    rw [hi] at hk
    simp only [eventsAt, hnone, hk]
  rw [history_append, hnil, List.nil_append, history, hevents]
  rfl

/-- What a written request makes of the cursor that it has. -/
theorem Issued.cursor (h : Issued (start s) as i t) :
    ∃ k h', ((start s).run as).cursors[i]? = some k ∧ k.token = t ∧
      (start s).history i as = .asked false :: h' := by
  obtain ⟨as₁, a, as₂, q, rfl, hq, rfl, hnoreply, hreply, -, hlen⟩ := h
  rcases request_cases _ hq with ⟨-, e, he⟩ | ⟨k₀, c₁, ha⟩
  · rw [hreply] at he
    cases he
  · have hk₀ : (((start s).run as₁).after a).cursors[i]? = some k₀ := hlen ▸ ha.getElem?_length
    obtain ⟨k, hk, hs⟩ := steps_run as₂ hk₀ ha.new.sound
    have hh : (start s).history i (as₁ ++ a :: as₂) = _ := history_of_asked ha hlen
    rw [hnoreply] at hh
    refine ⟨k, _, by rw [run_append, run_cons, hk], ?_, hh⟩
    rw [hs.token_eq, ha.new.token, (opening_of_request? hq).2]

/-- A cursor that wants answers has got a request written. -/
theorem issued_of_cursor (hk : ((start s).run as).cursors[i]? = some k) {h : List Event}
    (hh : (start s).history i as = .asked false :: h) : Issued (start s) as i k.token := by
  rcases history_of_none as (start_none s i) with
    ⟨hnil, -⟩ | ⟨as₁, a, as₂, k₀, c₁, rfl, hlen, ha, hh'⟩
  · rw [hh] at hnil
    cases hnil
  · have hk₀ : (((start s).run as₁).after a).cursors[i]? = some k₀ := hlen ▸ ha.getElem?_length
    obtain ⟨l, hl, hs⟩ := steps_run as₂ hk₀ ha.new.sound
    rw [run_append, run_cons] at hk
    obtain rfl := Option.some.inj (hk.symm.trans hl)
    obtain ⟨q, hq, hw⟩ := ha.written
    have hnoreply : a.isNoreply = false := by
      rw [hh] at hh'
      exact (Event.asked.inj (List.cons.inj hh').1).symm
    refine ⟨as₁, a, as₂, q, rfl, hq, ?_, hnoreply, ha.reply, ?_, hlen.symm⟩
    · rw [(opening_of_request? hq).2, hs.token_eq, ha.new.token]
    · rw [ha.after]
      exact hw

/-- A cursor is registered as long as the connection is open and nothing ends its registration. -/
theorem registered_iff (hk : ((start s).run as).cursors[i]? = some k) :
    k.registered = true ↔
      ((start s).run as).closed = false ∧ awaits ((start s).history i as) = true := by
  have horderly := (orderly_start s).run as
  obtain ⟨t, noreply, h, k₀, hnew, hh, hs⟩ := steps_of_none (start_none s i) hk
  have hlost (ho : ((start s).run as).closed = false) (e : ClientError) : .lost e ∉ h := by
    intro he
    have hmem : .lost e ∈ (start s).history i as := by
      rw [hh]
      exact List.mem_cons_of_mem _ he
    rw [(orderly_start s).closed_of_lost hmem] at ho
    cases ho
  have hiff (ho : ((start s).run as).closed = false) :=
    hs.registered_iff hnew.sound (hlost ho)
  have hreply : k₀.registered = true ↔ noreply = false := by
    rw [hnew.registered, Bool.not_eq_true']
  rw [hh, Cursor.awaits_asked]
  constructor
  · intro hr
    have ho := horderly.open_of_registered hk hr
    obtain ⟨hr₀, hall⟩ := (hiff ho).mp hr
    exact ⟨ho, hreply.mp hr₀, hall⟩
  · rintro ⟨ho, hnoreply, hall⟩
    exact (hiff ho).mpr ⟨hreply.mpr hnoreply, hall⟩

/-- The connection waits under a token for a query that was issued and is still to be answered. -/
theorem isRegistered_iff (s : Settings) (as : List Action) (t : Token) :
    ((start s).run as).isRegistered t = true ↔ ((start s).run as).closed = false ∧
      ∃ i, Issued (start s) as i t ∧ ∀ v ∈ (start s).history i as, v.isOver = false := by
  constructor
  · intro hr
    obtain ⟨k, hmem, hk⟩ := List.any_eq_true.mp hr
    obtain ⟨i, hi⟩ := List.mem_iff_getElem?.mp hmem
    simp only [Bool.and_eq_true, beq_iff_eq] at hk
    obtain ⟨hkr, rfl⟩ := hk
    obtain ⟨ho, hawait⟩ := (registered_iff hi).mp hkr
    obtain ⟨h, hh, hall⟩ := Cursor.awaits_iff.mp hawait
    exact ⟨ho, i, issued_of_cursor hi hh, hall⟩
  · rintro ⟨ho, i, hissued, hall⟩
    obtain ⟨k, h, hk, ht, hh⟩ := hissued.cursor
    have hawait : awaits ((start s).history i as) = true :=
      Cursor.awaits_iff.mpr ⟨h, hh, hall⟩
    have hr := (registered_iff hk).mpr ⟨ho, hawait⟩
    exact List.any_eq_true.mpr ⟨k, List.mem_of_getElem? hk, by simp [hr, ht]⟩

theorem running_of_wait {r : Inbox.Step} {s : Inbox} (hs : k.inbox.step = (r, s))
    (hr : r = .wait ∨ r = .fetch) : k.inbox.isRunning = true := by
  rcases hr with rfl | rfl
  · obtain ⟨-, -, hd, hc, -⟩ := Inbox.step_eq_wait.mp hs
    exact Inbox.isRunning_iff.mpr ⟨hc, hd⟩
  · obtain ⟨-, -, hd, hc, -⟩ := Inbox.step_eq_fetch.mp hs
    exact Inbox.isRunning_iff.mpr ⟨hc, hd⟩

/-- A call that has to wait waits for a server that has not finished. -/
theorem running_of_next?_none (hk : c.cursors[i]? = some k) (hn : (c.next? i).1 = none) :
    k.inbox.isRunning = true := by
  simp only [next?, hk] at hn
  cases hstep : k.inbox.step with
  | mk r s =>
    rw [hstep] at hn
    cases r with
    | wait => exact running_of_wait hstep (Or.inl rfl)
    | fetch => exact running_of_wait hstep (Or.inr rfl)
    | value | ended | failed => cases hn

theorem running_of_prime?_none (hk : c.cursors[i]? = some k) (hn : (c.prime? i).1 = none) :
    k.inbox.isRunning = true := by
  simp only [prime?, hk] at hn
  cases hprime : k.inbox.prime with
  | mk r s =>
    rw [hprime] at hn
    cases r with
    | ready | failed => cases hn
    | wait =>
      unfold Inbox.prime at hprime
      split at hprime
      · cases hprime
      next hb =>
        split at hprime
        · cases hprime
        · split at hprime
          · cases hprime
          next hd =>
            simp only [Bool.or_eq_true, not_or, Bool.not_eq_true] at hb hd
            exact Inbox.isRunning_iff.mpr ⟨hb.2, hd.1⟩

/-- The connection waits for a cursor whose owner has to wait. -/
theorem registered_of_waiting (hk : ((start s).run as).cursors[i]? = some k)
    (hd : .displaced ∉ (start s).history i as) (hrun : k.inbox.isRunning = true) :
    k.registered = true := by
  obtain ⟨t, noreply, h, k₀, hnew, hh, hs⟩ := steps_of_none (start_none s i) hk
  have hd' : .displaced ∉ h := fun hmem => hd (by rw [hh]; exact List.mem_cons_of_mem _ hmem)
  refine hs.running hnew.sound hd' (fun hrun₀ => ?_) hrun
  rw [hnew.inbox] at hrun₀
  rw [hnew.registered]
  cases noreply with
  | true => cases hrun₀
  | false => rfl

theorem countP_eq_range {l : List Cursor} {p : Cursor → Bool} {f : Nat → Bool}
    (h : ∀ (i : Nat) (k : Cursor), l[i]? = some k → p k = f i) :
    l.countP p = (List.range l.length).countP f := by
  induction l generalizing f with
  | nil => rfl
  | cons m l ih =>
    rw [List.length_cons, List.range_succ_eq_map, List.countP_cons, List.countP_cons,
      List.countP_map, ih fun i k hk => h (i + 1) k hk, h 0 m rfl]
    rfl

theorem Orderly.nodup_registered (h : Orderly c) :
    ((c.cursors.filter (·.registered)).map (·.token)).Nodup := by
  refine List.pairwise_map.mpr (List.pairwise_filter.mpr (List.pairwise_iff_getElem.mpr ?_))
  intro i j hi hj hij hri hrj ht
  have heq := h.distinct i j _ _ (List.getElem?_eq_getElem hi) (List.getElem?_eq_getElem hj)
    hri hrj ht
  exact Nat.ne_of_lt hij heq

/-- In every reachable state, the connection waits for answers under exactly the tokens of the
queries that are still to be answered, each of them counts once, and nobody is counted once the
connection is closed. Whoever has to wait is waited for, unless another query has got its token,
for which tokens have to wrap around. -/
theorem registry_exact (s : Settings) (as : List Action) :
    let c := (start s).run as
    let history := fun i => (start s).history i as
    (∀ t, c.isRegistered t = true ↔ c.closed = false ∧
      ∃ i, Issued (start s) as i t ∧ ∀ v ∈ history i, v.isOver = false) ∧
    c.openCursors =
      (List.range c.cursors.length).countP (fun i => !c.closed && awaits (history i)) ∧
    ((c.cursors.filter (·.registered)).map (·.token)).Nodup ∧
    (c.closed = true → c.openCursors = 0) ∧
    (∀ i k, c.cursors[i]? = some k → (c.next? i).1 = none ∨ (c.prime? i).1 = none →
      .displaced ∉ history i → k.registered = true) ∧
    (as.length < 2 ^ 64 → ∀ i, .displaced ∉ history i) := by
  intro c history
  have horderly := (orderly_start s).run as
  refine ⟨isRegistered_iff s as, ?_, horderly.nodup_registered, fun hc => ?_,
    fun i k hk hwait hd => ?_, fun hlen i => ?_⟩
  · refine countP_eq_range fun i k hk => ?_
    rw [Bool.eq_iff_iff, registered_iff hk, Bool.and_eq_true, Bool.not_eq_true']
  · refine List.countP_eq_zero.mpr fun k hk => ?_
    rw [horderly.closed hc k hk]
    decide
  · exact registered_of_waiting hk hd
      (hwait.elim (running_of_next?_none hk) (running_of_prime?_none hk))
  · refine (orderly_start s).not_displaced fun bs cs hs => ?_
    refine nodup_run s (Nat.lt_of_le_of_lt ?_ hlen)
    rw [hs, List.length_append]
    exact Nat.le_add_right _ _

/-- Two queries, of which the first is answered by what is no answer. -/
theorem registry_exact_pending :
    let ask : Action := .query .anything default false
    let as := [ask, ask, .report (.frame ⟨1, []⟩), .next 1]
    let c := (start default).run as
    c.openCursors = 1 ∧ c.isRegistered 1 = false ∧
      (∃ i, Issued (start default) as i 2 ∧
        ∀ v ∈ (start default).history i as, v.isOver = false) ∧
      (c.next? 1).1.isNone = true ∧ ∀ i, .displaced ∉ (start default).history i as := by
  intro ask as c
  obtain ⟨hiff, -, -, -, -, hdisplaced⟩ := registry_exact default as
  have hregistered : c.isRegistered 2 = true := by decide +kernel
  exact ⟨by decide +kernel, by decide +kernel, ((hiff 2).mp hregistered).2,
    by decide +kernel, hdisplaced (by decide)⟩

end Reql.Connection
