import Reql.Proofs.Connection.FlowControl
import Reql.Proofs.Connection.Outlet
import Reql.Proofs.Connection.Stopping
import Reql.Proofs.Cursor.Running

/-! The requests written for one query: the one that begins it, those for more, one to stop. -/
namespace Reql.Connection

open Cursor (Event Steps)

/-- The cursor for which an action writes: the one that is asked for, or the one of its owner. -/
def Action.author? (c : Connection) (a : Action) : Option CursorId :=
  if (a.request? c).isSome then some c.cursors.length else a.cursor?

def writes (c : Connection) (a : Action) : List Query :=
  (c.after a).written.drop c.written.length

/-- The requests that a run writes for the cursor at a place. -/
def requestsFor (c : Connection) (i : CursorId) : List Action → List Query
  | [] => []
  | a :: as => (if a.author? c = some i then c.writes a else []) ++ (c.after a).requestsFor i as

variable {c c' : Connection} {a : Action} {as as₁ as₂ : List Action} {i j : CursorId} {k : Cursor}
  {q : Query} {t : Token} {s : Settings}

theorem requestsFor_append (c : Connection) (i : CursorId) (as bs : List Action) :
    c.requestsFor i (as ++ bs) = c.requestsFor i as ++ (c.run as).requestsFor i bs := by
  induction as generalizing c with
  | nil => rfl
  | cons a as ih => simp only [List.cons_append, requestsFor, run_cons, ih, List.append_assoc]

theorem write_written (c : Connection) (q : Query) :
    (c.write q).2.written = c.written ∨ (c.write q).2.written = c.written ++ [q] := by
  rw [(c.write_sent q).2]
  cases (c.write q).1 with
  | none => exact .inr rfl
  | some e => exact .inl (List.append_nil _)

theorem stop_written (c : Connection) (t : Token) :
    (c.stop t).2.written = c.written ∨ (c.stop t).2.written = c.written ++ [.bare t .stop] := by
  unfold stop
  split
  · exact .inl rfl
  · exact c.write_written _

theorem continueQuery_written (c : Connection) (t : Token) :
    (c.continueQuery t).2.written = c.written ∨ c.isRegistered t = true ∧
      (c.continueQuery t).2.written = c.written ++ [.bare t .continue] := by
  unfold continueQuery
  split
  · exact .inl rfl
  · split
    next h => exact (c.write_written _).imp_right fun hw => ⟨h, hw⟩
    · exact .inl rfl

theorem next?_written (id : CursorId) : (c.next? id).2.written = c.written ∨
    ∃ q, Action.Sends c (.next id) q ∧ (c.next? id).2.written = c.written ++ [q] := by
  cases hk : c.cursors[id]? with
  | none => exact .inl (by simp only [next?, hk])
  | some k =>
    obtain ⟨offer, inbox, hstep⟩ : ∃ offer inbox, k.inbox.step = (offer, inbox) := ⟨_, _, rfl⟩
    have hset : Quiet c (c.modifyInbox id fun _ => inbox) := ⟨rfl, rfl⟩
    rw [next?_of_step hk hstep]
    cases offer with
    | value | wait => exact .inl rfl
    | ended | failed => exact .inl (hset.trans (finish_quiet _ id)).written
    | fetch =>
      have hwritten : ((c.modifyInbox id fun _ => inbox).continueQuery k.token).2.written =
          c.written ∨ ∃ q, Action.Sends c (.next id) q ∧
            ((c.modifyInbox id fun _ => inbox).continueQuery k.token).2.written =
              c.written ++ [q] := by
        refine (continueQuery_written _ k.token).imp_right fun hasked => ?_
        obtain ⟨hregistered, hw⟩ := hasked
        rw [isRegistered_modifyInbox] at hregistered
        exact ⟨_, ⟨k, hk, by rw [hstep], hregistered, rfl⟩, hw⟩
      dsimp only
      split
      next d hq =>
        rw [hq] at hwritten
        exact hwritten
      next e d hq =>
        rw [hq] at hwritten
        have habandon : Quiet d (d.modifyInbox id Inbox.abandon) := ⟨rfl, rfl⟩
        dsimp only at hwritten ⊢
        rw [(habandon.trans (finish_quiet _ id)).written]
        exact hwritten

/-- Whoever gives up a cursor writes at most the request to stop it. -/
theorem releases_written_or (ha : a.Releases i) : (c.after a).written = c.written ∨
    ∃ k, c.cursors[i]? = some k ∧ k.inbox.isRunning = true ∧ k.exclusive = false ∧
      (c.after a).written = c.written ++ [.bare k.token .stop] := by
  cases hk : c.cursors[i]? with
  | none =>
    left
    rcases ha with rfl | rfl
    · change (c.closeCursor i).2.written = _
      simp only [closeCursor, hk]
    · change (c.dropCursor i).written = _
      simp only [dropCursor, hk]
  | some k =>
    rw [releases_written hk ha]
    split
    next h => exact (c.stop_written k.token).imp_right fun hw => ⟨k, rfl, h.2, h.1, hw⟩
    · exact .inl rfl

theorem request_written (hq : a.request? c = some q) :
    (c.after a).written = c.written ∨
      (c.after a).written = c.written ++ [q] ∧
        (c.after a).cursors.length = c.cursors.length + 1 := by
  have hasks {noreply : Bool} {r : Except ClientError CursorId × Connection}
      (h : Asks (fun _ => True) (fun _ => True) noreply q c r) : r.2.written = c.written ∨
        r.2.written = c.written ++ [q] ∧ r.2.cursors.length = c.cursors.length + 1 := by
    rcases h with ⟨e, -, -, -, hw⟩ | ⟨c₁, k, rfl, hs, -, -, hw, -⟩
    · exact .inl hw
    · refine .inr ⟨hw, ?_⟩
      rw [← hs.length]
      exact List.length_append
  cases a with
  | query term options exclusive =>
    obtain rfl := Option.some.inj hq
    cases ho : c.closed with
    | true => exact .inl (by simp only [after, act, query, ho, if_true])
    | false => exact hasks (c.query_cases term options exclusive trivial ho)
  | noreplyWait =>
    obtain rfl := Option.some.inj hq
    cases ho : c.closed with
    | true => exact .inl (by simp only [after, act, noreplyWait, ho, if_true])
    | false => exact hasks (c.noreplyWait_cases trivial ho)
  | _ => cases hq

/-- An action writes one request at most, and only the one that it has to send. -/
theorem written_after (c : Connection) (a : Action) : (c.after a).written = c.written ∨
    ∃ q, a.Sends c q ∧ (c.after a).written = c.written ++ [q] := by
  cases a with
  | query term options exclusive =>
    exact (request_written rfl).imp_right fun h => ⟨_, rfl, h.1⟩
  | noreplyWait => exact (request_written rfl).imp_right fun h => ⟨_, rfl, h.1⟩
  | next id => exact next?_written id
  | prime id => exact .inl (c.prime?_quiet id).written
  | closeCursor id =>
    exact (releases_written_or (.inl rfl)).imp_right fun ⟨k, hk, hrun, he, hw⟩ =>
      ⟨_, ⟨k, hk, hrun, he, rfl⟩, hw⟩
  | dropCursor id =>
    exact (releases_written_or (.inr rfl)).imp_right fun ⟨k, hk, hrun, he, hw⟩ =>
      ⟨_, ⟨k, hk, hrun, he, rfl⟩, hw⟩
  | continueQuery t =>
    exact (c.continueQuery_written t).imp_right fun ⟨hr, hw⟩ => ⟨_, ⟨hr, rfl⟩, hw⟩
  | stop t => exact (c.stop_written t).imp_right fun hw => ⟨_, rfl, hw⟩
  | close => exact .inl c.close_quiet.written
  | drop =>
    have h : Quiet c { c with held := false } := ⟨rfl, rfl⟩
    exact .inl (h.trans (collect_quiet _)).written
  | report event => exact .inl (c.handle_quiet event).written
  | breakWriting reason => exact .inl rfl

theorem written_eq_append (c : Connection) (a : Action) :
    (c.after a).written = c.written ++ c.writes a := by
  unfold writes
  rcases c.written_after a with h | ⟨q, -, h⟩ <;> rw [h] <;> simp

theorem writes_cases (c : Connection) (a : Action) :
    c.writes a = [] ∨ ∃ q, a.Sends c q ∧ c.writes a = [q] := by
  unfold writes
  rcases c.written_after a with h | ⟨q, hq, h⟩
  · exact .inl (by rw [h, List.drop_length])
  · exact .inr ⟨q, hq, by rw [h, List.drop_left]⟩

theorem sends_of_mem_writes (hq : q ∈ c.writes a) : a.Sends c q ∧ c.writes a = [q] := by
  rcases c.writes_cases a with h | ⟨q', hsends, h⟩
  · rw [h] at hq
    cases hq
  · rw [h] at hq ⊢
    obtain rfl := List.mem_singleton.mp hq
    exact ⟨hsends, rfl⟩

/-- A request that begins a query is written for the cursor that is added for it. -/
theorem asked_of_written (hq : a.request? c = some q) (hw : c.writes a = [q]) :
    ∃ k c₁, Asked (a.Ends c) (a.Owns c) c a k c₁ := by
  rcases c.after_cases a with hs | hasked
  · have hlength : (c.after a).cursors.length = c.cursors.length + 1 := by
      rcases request_written hq with h | ⟨-, hlength⟩
      · rw [writes, h, List.drop_length] at hw
        cases hw
      · exact hlength
    rw [hs.length] at hlength
    omega
  · exact hasked

theorem author?_of_cursor? (ha : a.cursor? = some i) : a.author? c = some i := by
  cases a with
  | query | noreplyWait => cases ha
  | _ => exact ha

/-- What is written without being asked for explicitly is written for a cursor with its token. -/
theorem author_of_mem_writes (horderly : Orderly c) (hq : q ∈ c.writes a) :
    a = .continueQuery q.token ∨ a = .stop q.token ∨
      ∃ j k, a.author? c = some j ∧ (c.after a).cursors[j]? = some k ∧ k.token = q.token := by
  obtain ⟨hsends, hwrites⟩ := sends_of_mem_writes hq
  have hkept {j : CursorId} {l : Cursor} (ha : a.cursor? = some j) (hl : c.cursors[j]? = some l)
      (ht : l.token = q.token) :
      ∃ j k, a.author? c = some j ∧ (c.after a).cursors[j]? = some k ∧ k.token = q.token := by
    obtain ⟨k, hk, hs⟩ := steps_after a hl (horderly.sound j l hl)
    exact ⟨j, k, author?_of_cursor? ha, hk, hs.token_eq.trans ht⟩
  have hadded (hrequest : a.request? c = some q) :
      ∃ j k, a.author? c = some j ∧ (c.after a).cursors[j]? = some k ∧ k.token = q.token := by
    obtain ⟨k, c₁, hasked⟩ := asked_of_written hrequest hwrites
    have hauthor : a.author? c = some c.cursors.length := by
      rw [Action.author?, hrequest, Option.isSome_some, if_pos rfl]
    exact ⟨_, k, hauthor, hasked.getElem?_length,
      hasked.new.token.trans (opening_of_request? hrequest).2.symm⟩
  cases a with
  | query | noreplyWait => exact .inr (.inr (hadded hsends))
  | next id =>
    obtain ⟨l, hl, -, -, rfl⟩ := hsends
    exact .inr (.inr (hkept rfl hl rfl))
  | closeCursor id | dropCursor id =>
    obtain ⟨l, hl, -, -, rfl⟩ := hsends
    exact .inr (.inr (hkept rfl hl rfl))
  | continueQuery u =>
    obtain ⟨-, rfl⟩ := hsends
    exact .inl rfl
  | stop u =>
    obtain rfl : q = .bare u .stop := hsends
    exact .inr (.inl rfl)
  | _ => cases hsends

/-- A server is asked to stop on behalf of an owner who gives up a cursor that is still to be
answered and does not have its connection to itself. -/
theorem releases_of_stop (hq : .bare t .stop ∈ c.writes a) (ha : a ≠ .stop t) :
    ∃ i k, a.Releases i ∧ c.cursors[i]? = some k ∧ k.token = t ∧ k.exclusive = false ∧
      k.inbox.isRunning = true := by
  obtain ⟨hsends, -⟩ := sends_of_mem_writes hq
  have hopening (hrequest : a.request? c = some (.bare t .stop)) : False := by
    cases (opening_of_request? hrequest).1
  cases a with
  | query | noreplyWait => exact (hopening hsends).elim
  | next id =>
    obtain ⟨k, -, -, -, hq⟩ := hsends
    simp [Query.bare] at hq
  | closeCursor id =>
    obtain ⟨k, hk, hrun, he, hq⟩ := hsends
    exact ⟨id, k, .inl rfl, hk, (congrArg Query.token hq).symm, he, hrun⟩
  | dropCursor id =>
    obtain ⟨k, hk, hrun, he, hq⟩ := hsends
    exact ⟨id, k, .inr rfl, hk, (congrArg Query.token hq).symm, he, hrun⟩
  | continueQuery u =>
    obtain ⟨-, hq⟩ := hsends
    simp [Query.bare] at hq
  | stop u =>
    obtain rfl : t = u := congrArg Query.token hsends
    exact absurd rfl ha
  | _ => cases hsends

/-- What is written for a cursor that is there. -/
theorem writes_for (hk : c.cursors[i]? = some k) (ha : a.author? c = some i) :
    c.writes a = [] ∨
      c.writes a = [.bare k.token .continue] ∧ k.inbox.isRunning = true ∨
      c.writes a = [.bare k.token .stop] ∧ k.inbox.isRunning = true ∧ k.exclusive = false ∧
        a.Releases i := by
  rcases c.writes_cases a with h | ⟨q, hsends, h⟩
  · exact .inl h
  right
  have hnew : (a.request? c).isSome = false := by
    cases hr : (a.request? c).isSome with
    | false => rfl
    | true =>
      rw [Action.author?, hr, if_pos rfl] at ha
      have hlt := (List.getElem?_eq_some_iff.mp hk).choose
      exact absurd (Option.some.inj ha) (Nat.ne_of_gt hlt)
  cases a with
  | query | noreplyWait => cases hnew
  | next id =>
    obtain rfl : id = i := Option.some.inj ha
    obtain ⟨l, hl, hfetch, -, rfl⟩ := hsends
    obtain rfl := Option.some.inj (hk.symm.trans hl)
    exact .inl ⟨h, running_of_wait (Prod.ext hfetch rfl) (.inr rfl)⟩
  | closeCursor id =>
    obtain rfl : id = i := Option.some.inj ha
    obtain ⟨l, hl, hrun, he, rfl⟩ := hsends
    obtain rfl := Option.some.inj (hk.symm.trans hl)
    exact .inr ⟨h, hrun, he, .inl rfl⟩
  | dropCursor id =>
    obtain rfl : id = i := Option.some.inj ha
    obtain ⟨l, hl, hrun, he, rfl⟩ := hsends
    obtain rfl := Option.some.inj (hk.symm.trans hl)
    exact .inr ⟨h, hrun, he, .inr rfl⟩
  | prime id => cases hsends
  | _ => cases ha

/-- A server is not to go on with what has been given up. -/
theorem idle_of_releases (hk : c.cursors[i]? = some k) (hs : k.Sound) (ha : a.Releases i) :
    ∃ k', (c.after a).cursors[i]? = some k' ∧ k'.inbox.isRunning = false := by
  rcases ha with rfl | rfl
  · obtain ⟨k', hk', hstep⟩ := step_closeCursor hk hs
    exact ⟨k', hk', hstep.not_running_of_release rfl⟩
  · obtain ⟨k', hk', hstep⟩ := step_dropCursor hk hs
    exact ⟨k', hk', hstep.not_running_of_release rfl⟩

/-- What is written for a cursor from now on: requests for more, then at most one to stop, and
nothing unless the cursor is still to be answered. -/
theorem requestsFor_eq (as : List Action) (horderly : Orderly c) (hk : c.cursors[i]? = some k) :
    ∃ n m, c.requestsFor i as = List.replicate n (.bare k.token .continue) ++
        List.replicate m (.bare k.token .stop) ∧ m ≤ 1 ∧
      (k.inbox.isRunning = false → n = 0 ∧ m = 0) ∧ (k.exclusive = true → m = 0) := by
  induction as generalizing c k with
  | nil => exact ⟨0, 0, rfl, Nat.zero_le _, fun _ => ⟨rfl, rfl⟩, fun _ => rfl⟩
  | cons a as ih =>
    obtain ⟨k', hk', hs⟩ := steps_after a hk (horderly.sound i k hk)
    obtain ⟨n, m, heq, hm, hidle, hexclusive⟩ := ih (horderly.after a) hk'
    have hidle' (hrun : k.inbox.isRunning = false) : k'.inbox.isRunning = false :=
      Bool.eq_false_iff.mpr fun h => by simp [hs.running_of h] at hrun
    rw [hs.token_eq] at heq
    rw [hs.exclusive_eq] at hexclusive
    rw [requestsFor, heq]
    by_cases ha : a.author? c = some i
    · rw [if_pos ha]
      rcases writes_for hk ha with h | ⟨h, hrun⟩ | ⟨h, hrun, he, hrelease⟩
      · exact ⟨n, m, by rw [h, List.nil_append], hm, hidle ∘ hidle', hexclusive⟩
      · refine ⟨n + 1, m, by rw [h, List.replicate_succ]; rfl, hm, fun hno => ?_, hexclusive⟩
        rw [hrun] at hno
        cases hno
      · -- who is given up has nothing written any more
        have hgone : k'.inbox.isRunning = false := by
          obtain ⟨l, hl, hidle⟩ := idle_of_releases hk (horderly.sound i k hk) hrelease
          rwa [Option.some.inj (hk'.symm.trans hl)]
        obtain ⟨rfl, rfl⟩ := hidle hgone
        refine ⟨0, 1, by rw [h]; rfl, Nat.le_refl 1, fun hno => ?_, fun hyes => ?_⟩
        · rw [hrun] at hno
          cases hno
        · rw [he] at hyes
          cases hyes
    · rw [if_neg ha, List.nil_append]
      exact ⟨n, m, rfl, hm, hidle ∘ hidle', hexclusive⟩

/-- Nothing is written for a cursor that is not there. -/
theorem requestsFor_of_none (as : List Action) (hi : c.cursors[i]? = none)
    (hnone : (c.run as).cursors[i]? = none) (horderly : Orderly c) : c.requestsFor i as = [] := by
  induction as generalizing c with
  | nil => rfl
  | cons a as ih =>
    have hafter : (c.after a).cursors[i]? = none := by
      cases hk : (c.after a).cursors[i]? with
      | none => rfl
      | some k =>
        obtain ⟨k', hk', -⟩ := steps_run as hk ((horderly.after a).sound i k hk)
        rw [run_cons, hk'] at hnone
        cases hnone
    rw [requestsFor, ih hafter hnone (horderly.after a), List.append_nil]
    split
    next ha =>
      refine List.eq_nil_iff_forall_not_mem.mpr fun q hq => ?_
      rcases author_of_mem_writes horderly hq with rfl | rfl | ⟨j, k, hj, hk, -⟩
      · cases ha
      · cases ha
      · obtain rfl := Option.some.inj (ha.symm.trans hj)
        rw [hafter] at hk
        cases hk
    · rfl

/-- What a run writes for a cursor, from its beginning. -/
theorem requestsFor_run (hk : ((start s).run as).cursors[i]? = some k) :
    ∃ q n m, (start s).requestsFor i as = q :: (List.replicate n (.bare k.token .continue) ++
        List.replicate m (.bare k.token .stop)) ∧
      q.isOpening = true ∧ q.token = k.token ∧ m ≤ 1 ∧ (k.exclusive = true → m = 0) ∧
      (((start s).history i as).head? = some (.asked true) → q.type = .start ∧ n = 0 ∧ m = 0) := by
  rcases history_of_none as (start_none s i) with
    ⟨-, hnone⟩ | ⟨as₁, a, as₂, k₀, c₁, rfl, hlen, hasked, hh⟩
  · rw [hnone] at hk
    cases hk
  have horderly := (orderly_start s).run as₁
  have hk₀ : (((start s).run as₁).after a).cursors[i]? = some k₀ :=
    hlen ▸ hasked.getElem?_length
  obtain ⟨l, hl, hs⟩ := steps_run as₂ hk₀ hasked.new.sound
  rw [run_append, run_cons] at hk
  obtain rfl := Option.some.inj (hk.symm.trans hl)
  obtain ⟨n, m, heq, hm, hidle, hexclusive⟩ := requestsFor_eq as₂ (horderly.after a) hk₀
  obtain ⟨q, hq, hw⟩ := hasked.written
  obtain ⟨hopening, htoken⟩ := opening_of_request? hq
  have hbefore : (start s).requestsFor i as₁ = [] := by
    refine requestsFor_of_none as₁ (start_none s i) ?_ (orderly_start s)
    exact List.getElem?_eq_none_iff.mpr (Nat.le_of_eq hlen.symm)
  have hauthor : a.author? ((start s).run as₁) = some i := by
    rw [Action.author?, hq, Option.isSome_some, if_pos rfl, hlen]
  have hwrites : ((start s).run as₁).writes a = [q] := by
    have hafter : (((start s).run as₁).after a).written = c₁.written := by
      rw [hasked.after]
      rfl
    rw [writes, hafter, hw, List.drop_left]
  rw [← hs.token_eq] at heq
  rw [← hs.exclusive_eq] at hexclusive
  refine ⟨q, n, m, ?_, hopening, ?_, hm, hexclusive, fun hhead => ?_⟩
  · rw [requestsFor_append, hbefore, List.nil_append, requestsFor, if_pos hauthor, hwrites, heq]
    rfl
  · rw [htoken, hs.token_eq, hasked.new.token]
  · have hnoreply : a.isNoreply = true := by
      rw [hh] at hhead
      exact Event.asked.inj (Option.some.inj hhead)
    have hfinished : k₀.inbox.isRunning = false := by
      rw [hasked.new.inbox, hnoreply]
      rfl
    refine ⟨?_, hidle hfinished⟩
    cases a with
    | query =>
      obtain rfl := Option.some.inj hq
      rfl
    | _ => cases hnoreply

/-- What is written under a token that only one cursor has is written for that cursor, unless it is
asked for explicitly. -/
theorem filter_written (horderly : Orderly c) (hstop : .stop t ∉ as)
    (hcontinue : .continueQuery t ∉ as)
    (honly : ∀ j l, (c.run as).cursors[j]? = some l → (l.token = t ↔ j = i)) :
    (c.run as).written.filter (·.token == t) =
      c.written.filter (·.token == t) ++ c.requestsFor i as := by
  induction as generalizing c with
  | nil => exact (List.append_nil _).symm
  | cons a as ih =>
    have hrest := ih (horderly.after a) (fun h => hstop (List.mem_cons_of_mem _ h))
      (fun h => hcontinue (List.mem_cons_of_mem _ h)) honly
    have hauthor : ∀ q ∈ c.writes a, q.token = t ↔ a.author? c = some i := by
      intro q hq
      rcases author_of_mem_writes horderly hq with ha | ha | ⟨j, k, hj, hk, hkq⟩
      · have hne : q.token ≠ t := fun ht => hcontinue (by rw [← ht, ← ha]; exact List.mem_cons_self)
        have hnone : a.author? c = none := by rw [ha]; rfl
        simp [hne, hnone]
      · have hne : q.token ≠ t := fun ht => hstop (by rw [← ht, ← ha]; exact List.mem_cons_self)
        have hnone : a.author? c = none := by rw [ha]; rfl
        simp [hne, hnone]
      · obtain ⟨l, hl, hs⟩ := steps_run as hk ((horderly.after a).sound j k hk)
        rw [← hkq, ← hs.token_eq, honly j l hl, hj, Option.some.injEq]
    have hwrites : (c.writes a).filter (·.token == t) =
        if a.author? c = some i then c.writes a else [] := by
      split
      next ha =>
        exact List.filter_eq_self.mpr fun q hq => beq_iff_eq.mpr ((hauthor q hq).mpr ha)
      next ha =>
        refine List.filter_eq_nil_iff.mpr fun q hq ht => ?_
        exact ha ((hauthor q hq).mp (beq_iff_eq.mp ht))
    rw [run_cons, hrest, requestsFor, written_eq_append, List.filter_append, hwrites,
      List.append_assoc]

/-- Nothing is written under a token that has not been issued, unless it is asked for explicitly. -/
theorem exists_of_mem_written (horderly : Orderly c) (hq : q ∈ (c.run as).written)
    (hstop : .stop q.token ∉ as) (hcontinue : .continueQuery q.token ∉ as) :
    q ∈ c.written ∨ ∃ i k, (c.run as).cursors[i]? = some k ∧ k.token = q.token ∧
      q ∈ c.requestsFor i as := by
  induction as generalizing c with
  | nil => exact .inl hq
  | cons a as ih =>
    rcases ih (horderly.after a) hq (fun h => hstop (List.mem_cons_of_mem _ h))
        (fun h => hcontinue (List.mem_cons_of_mem _ h)) with hq' | ⟨i, k, hk, ht, hmem⟩
    · rw [written_eq_append] at hq'
      rcases List.mem_append.mp hq' with hq' | hq'
      · exact .inl hq'
      · right
        rcases author_of_mem_writes horderly hq' with ha | ha | ⟨j, k, hj, hk, hkq⟩
        · exact absurd (ha ▸ List.mem_cons_self) hcontinue
        · exact absurd (ha ▸ List.mem_cons_self) hstop
        · obtain ⟨l, hl, hs⟩ := steps_run as hk ((horderly.after a).sound j k hk)
          refine ⟨j, l, hl, hs.token_eq.trans hkq, ?_⟩
          rw [requestsFor, if_pos hj]
          exact List.mem_append_left _ hq'
    · exact .inr ⟨i, k, hk, ht, List.mem_append_right _ hmem⟩

/-- Until tokens wrap around, each of them belongs to one query at most. -/
theorem token_iff_of_queriesUnder (hone : c.queriesUnder t ≤ 1) (hk : c.cursors[i]? = some k)
    (ht : k.token = t) (j : CursorId) (l : Cursor) (hl : c.cursors[j]? = some l) :
    l.token = t ↔ j = i := by
  constructor
  · intro hlt
    refine Decidable.byContradiction fun hne => ?_
    have hcount : c.cursors.countP (fun k => k.token == t) ≤ 1 := by
      rw [queriesUnder, List.count, List.countP_map] at hone
      exact hone
    have hsplit := countP_eraseIdx (fun k => k.token == t) c.cursors i
    have hleft : 0 < (c.cursors.eraseIdx i).countP fun k => k.token == t :=
      List.countP_pos_iff.mpr ⟨l, List.mem_eraseIdx_iff_getElem?.mpr ⟨j, hne, hl⟩, by simp [hlt]⟩
    rw [hk, Option.any_some, ht, beq_self_eq_true, Bool.toNat_true] at hsplit
    omega
  · rintro rfl
    rw [← ht, Option.some.inj (hl.symm.trans hk)]

/-- The discipline of the requests that a connection writes, as bytes on its stream. For each query
there is the request that begins it, then any number of requests for more, then at most one to
stop, and nothing else: for a query without an answer only the first, for an exclusive cursor none
to stop. A request to stop is written when a cursor is given up to which nothing final has been
delivered, unless someone asks for it explicitly. Until tokens wrap around these are, for each
token, all the requests under it; and under a token that no query has there are none. -/
theorem wire_discipline (s : Settings) (as : List Action) :
    let c := (start s).run as
    c.writer.link.delivered = c.written.flatMap Query.bytes ∧
    (∀ i k, c.cursors[i]? = some k → ∃ q n m,
      (start s).requestsFor i as = q :: (List.replicate n (.bare k.token .continue) ++
        List.replicate m (.bare k.token .stop)) ∧
      q.isOpening = true ∧ q.token = k.token ∧ m ≤ 1 ∧ (k.exclusive = true → m = 0) ∧
      (((start s).history i as).head? = some (.asked true) → q.type = .start ∧ n = 0 ∧ m = 0)) ∧
    (∀ as₁ a as₂ t, as = as₁ ++ a :: as₂ → .bare t .stop ∈ ((start s).run as₁).writes a →
      a ≠ .stop t → ∃ i k, a.Releases i ∧ ((start s).run as₁).cursors[i]? = some k ∧
        k.token = t ∧ k.exclusive = false ∧ ∀ v ∈ (start s).history i as₁, v.isPlain = true) ∧
    (as.length < 2 ^ 64 → ∀ t, c.queriesUnder t ≤ 1) ∧
    ∀ t, .stop t ∉ as → .continueQuery t ∉ as →
      (∀ i k, c.cursors[i]? = some k → k.token = t → c.queriesUnder t ≤ 1 →
        c.written.filter (·.token == t) = (start s).requestsFor i as) ∧
      ∀ q ∈ c.written, q.token = t → ∃ i k, c.cursors[i]? = some k ∧ k.token = t ∧
        q ∈ (start s).requestsFor i as := by
  intro c
  refine ⟨(exact_run s as).delivered, fun i k hk => requestsFor_run hk, ?_, fun hlen t => ?_,
    fun t hstop hcontinue => ⟨fun i k hk ht hone => ?_, ?_⟩⟩
  · rintro as₁ a as₂ t rfl hmem ha
    obtain ⟨i, k, hrelease, hk, ht, he, hrun⟩ := releases_of_stop hmem ha
    exact ⟨i, k, hrelease, hk, ht, he, (flow_run s hk).plain hrun⟩
  · exact List.nodup_iff_count.mp (nodup_run s hlen).1 t
  · exact filter_written (orderly_start s) hstop hcontinue (token_iff_of_queriesUnder hone hk ht)
  · rintro q hq rfl
    exact (exists_of_mem_written (orderly_start s) hq hstop hcontinue).resolve_left
      List.not_mem_nil

/-- A query that is closed while more of it is awaited, and dropped then. -/
theorem wire_discipline_closed :
    let empty : Frame := ⟨1, Bytes.ofString "\x7b\"t\":3,\"r\":[]\x7d"⟩
    let as : List Action := [.query .anything default false, .report (.frame empty), .next 0,
      .closeCursor 0, .dropCursor 0]
    .stop 1 ∉ as ∧ .continueQuery 1 ∉ as ∧
      ((start default).run as).written.filter (·.token == 1) =
        [.start 1 .anything default, .bare 1 .continue, .bare 1 .stop] := by
  intro empty as
  have hstop : .stop 1 ∉ as := by decide +kernel
  have hcontinue : .continueQuery 1 ∉ as := by decide +kernel
  have hk : ((start default).run as).cursors[0]? =
      some ⟨1, .anything, false, ⟨[], false, true, true, false, none, none⟩, false, false⟩ := by
    decide +kernel
  obtain ⟨-, -, -, hone, hunder⟩ := wire_discipline default as
  have hwritten := (hunder 1 hstop hcontinue).1 0 _ hk rfl (hone (by decide) 1)
  have hrequests : (start default).requestsFor 0 as =
      [.start 1 .anything default, .bare 1 .continue, .bare 1 .stop] := by decide +kernel
  exact ⟨hstop, hcontinue, hwritten.trans hrequests⟩

end Reql.Connection
