import Reql.Proofs.Connection.Asking
import Reql.Proofs.Connection.Drawing
import Reql.Proofs.Connection.Unwritten

/-! Waiting until all queries without replies are done. -/
namespace Reql

namespace Cursor

variable {k l : Cursor} {h : List Event}

theorem errors_remaining (s : Inbox) : errors (remaining s) = s.error.toList := by
  cases he : s.error <;> simp [errors, remaining, he, List.filterMap_map, Function.comp_def]

/-- Whoever reads nothing but values from a settled cursor leaves its failure there. -/
theorem Settled.kept (hk : k.Settled) (hs : Steps k h l) (hv : ∀ v ∈ h, v.isRelease = false)
    (hvalues : ∀ r ∈ results h, ∃ v, r = .ok (some v)) :
    l.Settled ∧ l.inbox.error = k.inbox.error := by
  induction h generalizing k with
  | nil =>
    cases hs
    exact ⟨hk, rfl⟩
  | cons v h ih =>
    obtain ⟨m, hm, hl⟩ := hs
    obtain ⟨hset, r, hr, hremaining⟩ := hk.step hm (hv v List.mem_cons_self)
    obtain ⟨w, rfl⟩ := hvalues r (List.mem_filterMap.mpr ⟨v, List.mem_cons_self, hr⟩)
    obtain ⟨hl', herror⟩ := ih hset hl (fun v hv' => hv v (List.mem_cons_of_mem _ hv'))
      fun r hr' => hvalues r (by
        rw [← List.singleton_append, results_append]
        exact List.mem_append_right _ hr')
    refine ⟨hl', herror.trans ?_⟩
    obtain hremaining | ⟨-, hr', -⟩ := hremaining
    · have herrors := congrArg errors hremaining
      rw [errors_remaining] at herrors
      have htail : errors (.ok (some w) :: remaining m.inbox) = errors (remaining m.inbox) := rfl
      rw [htail, errors_remaining] at herrors
      simpa using (congrArg List.head? herrors).symm
    · cases hr'

end Cursor

namespace Connection

open Cursor (Event Step Steps Settled Going results)

variable {c c' d : Connection} {id : CursorId} {k l : Cursor} {t : Token} {h : List Event}
  {o : Outcome}

/-! ### Reading a cursor to its end -/

/-- A call that reads to the end reads the next value and goes on. -/
theorem advance_barrier (hk : c.cursors[id]? = some k) :
    c.advance id .barrier = match (c.next? id).1 with
      | none => (.inr .barrier, (c.next? id).2)
      | some (.error e) => (.inl (.failed e), (c.next? id).2.dropCursor id)
      | some (.ok none) => (.inl .done, (c.next? id).2.dropCursor id)
      | some (.ok (some _)) => (c.next? id).2.advance id .barrier := by
  rw [advance, exhaust_succ]
  rcases hr : (c.next? id).1 with _ | _ | _ | v
  · rfl
  · rfl
  · rfl
  · dsimp only
    rw [advance, buffered_next? hk hr]

/-- With a value in the buffer, that is read first. -/
theorem advance_barrier_value {v : Json} {rest : List Json} (hk : c.cursors[id]? = some k)
    (hb : k.inbox.buffer = v :: rest) : c.advance id .barrier =
      (c.modifyInbox id fun _ => { k.inbox with buffer := rest }).advance id .barrier := by
  have hstep : k.inbox.step = (.value v, { k.inbox with buffer := rest }) :=
    Inbox.step_eq_value.mpr ⟨rest, hb, rfl⟩
  rw [advance_barrier hk, next?_of_step hk hstep]

/-- A call that has to wait has read values, and nothing else. -/
theorem exhaust_waiting {steps : Nat} (h : (exhaust id steps c).1 = .inr .barrier) :
    ∃ n, (exhaust id steps c).2 = c.run (List.replicate n (.next id)) ∧
      ∀ r ∈ c.readings id (List.replicate n (.next id)), ∃ v, r = .ok (some v) := by
  induction steps generalizing c with
  | zero => exact ⟨0, rfl, nofun⟩
  | succ steps ih =>
    rw [exhaust_succ] at h ⊢
    have hreadings (n : Nat) : c.readings id (List.replicate (n + 1) (.next id)) =
        (c.next? id).1.toList ++ (c.next? id).2.readings id (List.replicate n (.next id)) := by
      simp [List.replicate_succ, readings, reading?, after, act]
    rcases hr : (c.next? id).1 with _ | e | _ | v
    · refine ⟨1, rfl, fun r hmem => ?_⟩
      rw [hreadings, hr] at hmem
      cases hmem
    · rw [hr] at h; cases h
    · rw [hr] at h; cases h
    · rw [hr] at h
      obtain ⟨n, hrun, hvalues⟩ := ih h
      refine ⟨n + 1, hrun, fun r hmem => ?_⟩
      rw [hreadings, hr] at hmem
      obtain rfl | hmem := List.mem_cons.mp hmem
      · exact ⟨v, rfl⟩
      · exact hvalues r hmem

/-- A cursor to which nothing more is delivered is read to its error or its end. -/
theorem barrier_of_settled (hk : c.cursors[id]? = some k) (hs : k.Settled) :
    (c.advance id .barrier).1 = .inl (k.inbox.error.elim .done .failed) := by
  induction hb : k.inbox.buffer generalizing c k with
  | cons v rest ih =>
    rw [advance_barrier_value hk hb]
    exact ih (k := { k with inbox := { k.inbox with buffer := rest } })
      (getElem?_modifyInbox hk fun _ => { k.inbox with buffer := rest }) hs rfl
  | nil =>
    cases he : k.inbox.error with
    | some e =>
      have hstep := Inbox.step_eq_failed.mpr ⟨hb, he, rfl⟩
      rw [advance_barrier hk, next?_of_step hk hstep]
      rfl
    | none =>
      have hstep := Inbox.step_eq_ended.mpr ⟨hb, he, hs.2, rfl⟩
      rw [advance_barrier hk, next?_of_step hk hstep]
      rfl

/-- On an open connection, a registered query is refused more only if the stream fails. -/
theorem transport_of_continueQuery_refused {e : ClientError} (ho : c.closed = false)
    (hregistered : c.isRegistered t = true) (hfits : 3 ≤ c.writer.limit.bytes)
    (h : (c.continueQuery t).1 = some e) : ∃ reason, e = .transport reason := by
  rw [continueQuery_of_open ho hregistered] at h
  obtain ⟨w, hw, ⟨-, hwrite⟩ | ⟨e', hrefused, -⟩ | ⟨reason, hwrite⟩⟩ :=
    write_cases c (.bare t .continue)
  · rw [hwrite] at h
    cases h
  · have hnone : (Query.bare t .continue).refusal? w.limit = none :=
      (Query.refusal?_bare (by decide)).mpr (by rw [hw]; exact hfits)
    rw [hnone] at hrefused
    cases hrefused
  · rw [hwrite] at h
    exact ⟨reason, (Option.some.inj h).symm⟩

/-- Whoever asks for more of it has to wait, or the stream fails and the connection is closed. -/
theorem refused_of_fetch {s : Inbox} {r : Except ClientError (Option Json)}
    (hk : c.cursors[id]? = some k) (hr : k.registered = true) (ho : c.closed = false)
    (hfits : 3 ≤ c.writer.limit.bytes) (hstep : k.inbox.step = (.fetch, s))
    (hn : (c.next? id).1 = some r) :
    ∃ reason, r = .error (.transport reason) ∧ (c.next? id).2.closed = true := by
  have hread := next?_of_step hk hstep
  have hregistered : (c.modifyInbox id fun _ => s).isRegistered k.token = true := by
    rw [isRegistered_modifyInbox]
    exact List.any_eq_true.mpr ⟨k, List.mem_of_getElem? hk, by simp [hr]⟩
  dsimp only at hread
  rcases hcontinue : (c.modifyInbox id fun _ => s).continueQuery k.token with ⟨_ | e, d⟩
  · rw [hread, hcontinue] at hn
    cases hn
  · obtain ⟨reason, rfl⟩ := transport_of_continueQuery_refused (c := c.modifyInbox id fun _ => s)
      ho hregistered hfits (by rw [hcontinue])
    rw [hcontinue] at hread
    have hrefused : Event.ofRead k.inbox.step.1 (c.next? id).1 = .refused (.transport reason) := by
      rw [hstep, hread]
      rfl
    rw [hread] at hn
    refine ⟨reason, (Option.some.inj hn).symm, ?_⟩
    cases hclosed : (c.next? id).2.closed with
    | true => rfl
    | false =>
      have hnot := (not_registered_of_refused hk hfits hclosed hrefused).2
      rw [hr] at hnot
      cases hnot

/-- A query that is still to be answered is waited for, unless the stream fails when more is asked
for. -/
theorem barrier_of_going (hk : c.cursors[id]? = some k) (hg : k.Going) (hr : k.registered = true)
    (ho : c.closed = false) (hfits : 3 ≤ c.writer.limit.bytes) :
    (c.advance id .barrier).1 = .inr .barrier ∨
      ∃ reason, (c.advance id .barrier).1 = .inl (.failed (.transport reason)) ∧
        (c.advance id .barrier).2.closed = true := by
  induction hb : k.inbox.buffer generalizing c k with
  | cons v rest ih =>
    rw [advance_barrier_value hk hb]
    exact ih (getElem?_modifyInbox hk fun _ => { k.inbox with buffer := rest }) hg hr ho hfits rfl
  | nil =>
    obtain ⟨hrun, he⟩ := hg
    obtain ⟨hc, hd⟩ := Inbox.isRunning_iff.mp hrun
    rw [advance_barrier hk]
    cases hf : k.inbox.fetching with
    | true =>
      rw [next?_of_step hk (Inbox.step_eq_wait.mpr ⟨hb, he, hd, hc, hf, rfl⟩)]
      exact .inl rfl
    | false =>
      cases hn : (c.next? id).1 with
      | none => exact .inl rfl
      | some r =>
        obtain ⟨reason, rfl, hclosed⟩ := refused_of_fetch hk hr ho hfits
          (Inbox.step_eq_fetch.mpr ⟨hb, he, hd, hc, hf, rfl⟩) hn
        exact .inr ⟨reason, rfl, (dropCursor_spares (E := fun _ => True) (O := fun _ => True) _
          trivial fun _ _ => trivial).closed hclosed⟩

/-- With any outcome, the cursor is done with. -/
theorem over_of_barrier (hk : c.cursors[id]? = some k) (hs : k.Sound)
    (ho : (c.advance id .barrier).1 = .inl o) :
    (c.advance id .barrier).2.Over id k.token := by
  induction hb : k.inbox.buffer generalizing c k with
  | cons v rest ih =>
    rw [advance_barrier_value hk hb] at ho ⊢
    exact ih (k := { k with inbox := { k.inbox with buffer := rest } })
      (getElem?_modifyInbox hk fun _ => { k.inbox with buffer := rest }) hs ho rfl
  | nil =>
    obtain ⟨k', hk', hstep⟩ := step_next hk
    have hspent (h : (c.next? id).1 = some (.ok none) ∨ ∃ e, (c.next? id).1 = some (.error e)) :
        ((c.next? id).2.dropCursor id).Over id k.token := by
      have hover : Event.ofRead k.inbox.step.1 (c.next? id).1 = .ended ∨
          ∃ e, (Event.ofRead k.inbox.step.1 (c.next? id).1).result? = some (.error e) := by
        obtain h | ⟨e, h⟩ := h
        · exact .inl (by rw [h]; rfl)
        · exact .inr ⟨e, (Event.result?_ofRead _ _).trans h⟩
      exact (dropCursor_of_closed hk' (hstep.sound hs) (hstep.spent hover).2.2.1
        (next?_isRegistered hk h)).2
    rw [advance_barrier hk] at ho ⊢
    rcases hr : (c.next? id).1 with _ | e | _ | v
    · rw [hr] at ho
      cases ho
    · exact hspent (.inr ⟨e, hr⟩)
    · exact hspent (.inl hr)
    · obtain ⟨rest, hb', -⟩ := next?_eq_value hk hr
      rw [hb] at hb'
      cases hb'

/-! ### The call -/

/-- What a call comes to that reads its cursor at `id` to the end, when it goes on after the run
`as` of the connection `c`, in which it was asked for under the token `t`. -/
structure Awaits (c : Connection) (id : CursorId) (t : Token) (as : List Action) : Prop where
  /-- The last answer, or whatever fails before it, decides. -/
  final : ∀ v ∈ c.history id as, v.isFinal = true →
    ((c.run as).advance id .barrier).1 = .inl (v.failure?.elim .done .failed)
  /-- That is a frame under the token, or the loss of the connection. -/
  routed : ∀ v ∈ c.history id as, v.isFinal = true →
    (∃ f, .report (.frame f) ∈ as ∧ f.token = t ∧ v = .ofFrame f) ∨ ∃ e, v = .lost e
  /-- Before it the call waits, unless the stream fails when more is asked for. -/
  pending : (∀ v ∈ c.history id as, v.isFinal = false) →
    ((c.run as).advance id .barrier).1 = .inr .barrier ∨
      ∃ reason, ((c.run as).advance id .barrier).1 = .inl (.failed (.transport reason)) ∧
        ((c.run as).advance id .barrier).2.closed = true
  /-- It succeeds only after a last answer under the token that is no error. -/
  done : ((c.run as).advance id .barrier).1 = .inl .done → ∃ f r, .report (.frame f) ∈ as ∧
    f.token = t ∧ Response.decode t f.payload = .ok r ∧ .answered r ∈ c.history id as ∧
      r.body.isBatch = false ∧ Inbox.errorOf r.body = none
  /-- If it waits, it has read values and may have asked for more. -/
  waits : ((c.run as).advance id .barrier).1 = .inr .barrier → ∃ n,
    ((c.run as).advance id .barrier).2 = c.run (as ++ List.replicate n (.next id)) ∧
      ∀ r ∈ (c.run as).readings id (List.replicate n (.next id)), ∃ v, r = .ok (some v)
  /-- With any outcome, nothing is left. -/
  ended : ∀ o, ((c.run as).advance id .barrier).1 = .inl o →
    ((c.run as).advance id .barrier).2.Over id t ∧ ((c.run as).advance id .barrier).2.Forgets t
  /-- What arrives under other tokens does not concern it. -/
  others : ∀ f : Frame, f.token ≠ t →
    ((c.run as).after (.report (.frame f))).cursors[id]? = (c.run as).cursors[id]?

section Events

variable {as : List Action} {v : Event}

/-- Of a cursor that has got its last delivery, and of which nothing but values has been read. -/
theorem settled_of_final (hl : l.Sound) (hsteps : Steps l h k)
    (hkept : ∀ w ∈ h, w.isRelease = false) (hvalues : ∀ r ∈ results h, ∃ v, r = .ok (some v))
    (hv : v ∈ h) (hfinal : v.isFinal = true) : k.Settled ∧ k.inbox.error = v.failure? := by
  obtain ⟨h₁, h₂, rfl⟩ := List.append_of_mem hv
  obtain ⟨m, hm, n, hn, hsteps₂⟩ := Cursor.steps_append.mp hsteps
  obtain ⟨hset, herror, -⟩ := hn.settled (hm.sound hl) hfinal
  obtain ⟨hset', herror'⟩ := hset.kept hsteps₂
    (fun w hw => hkept w (List.mem_append_right _ (List.mem_cons_of_mem _ hw)))
    fun r hr => hvalues r (by
      rw [Cursor.results_append, ← List.singleton_append, Cursor.results_append]
      exact List.mem_append_right _ (List.mem_append_right _ hr))
  exact ⟨hset', herror'.trans herror⟩

/-- Of a cursor that is still to be answered, and of which nothing but values has been read. -/
theorem going_of_pending (hl : l.New t false) (hsteps : Steps l h k)
    (hkept : ∀ w ∈ h, w.isRelease = false) (hvalues : ∀ r ∈ results h, ∃ v, r = .ok (some v))
    (hdisplaced : .displaced ∉ h) (hpending : ∀ v ∈ h, v.isFinal = false) :
    k.Going ∧ k.registered = true := by
  have hgoing : l.Going := by rw [Cursor.Going, hl.inbox]; exact ⟨rfl, rfl⟩
  have hend (w : Event) (hw : w ∈ h) : w.isEnd = false := by
    have hrefusal : w.isRefusal = false := by
      cases w with
      | refused e =>
        obtain ⟨v, hv⟩ := hvalues (.error e) (List.mem_filterMap.mpr ⟨_, hw, rfl⟩)
        cases hv
      | _ => rfl
    simp [Event.isEnd, hpending w hw, hkept w hw, hrefusal]
  have hk := hsteps.going hgoing hend
  exact ⟨hk, hsteps.running hl.sound hdisplaced (fun _ => hl.registered) hk.1⟩

theorem awaits_of_new (horderly : Orderly c) (hl : c.cursors[id]? = some l)
    (hnew : l.New t false) (hfits : 3 ≤ (c.run as).writer.limit.bytes)
    (hdisplaced : .displaced ∉ c.history id as)
    (howner : ∀ a ∈ as, a.cursor? = some id → a = .next id)
    (hvalues : ∀ r ∈ c.readings id as, ∃ v, r = .ok (some v)) : Awaits c id t as := by
  have hkept (v : Event) (hv : v ∈ c.history id as) : v.isRelease = false := by
    cases h : v.isRelease with
    | false => rfl
    | true =>
      obtain hmem | hmem := release_of_mem_history hv h <;> cases howner _ hmem rfl
  rw [← results_history as hl hnew.sound] at hvalues
  obtain ⟨k, hk, hsteps⟩ := steps_run as hl hnew.sound
  have ht : k.token = t := hsteps.token_eq.trans hnew.token
  have hfinal (v : Event) (hv : v ∈ c.history id as) (h : v.isFinal = true) :
      ((c.run as).advance id .barrier).1 = .inl (v.failure?.elim .done .failed) := by
    obtain ⟨hset, herror⟩ := settled_of_final hnew.sound hsteps hkept hvalues hv h
    rw [barrier_of_settled hk hset, herror]
  have hrouted (v : Event) (hv : v ∈ c.history id as) (h : v.isFinal = true) :=
    routed_of_isReply hl hnew.sound hv (by rw [Event.isReply, h, Bool.or_true])
  have hpending (h : ∀ v ∈ c.history id as, v.isFinal = false) :
      ((c.run as).advance id .barrier).1 = .inr .barrier ∨
        ∃ reason, ((c.run as).advance id .barrier).1 = .inl (.failed (.transport reason)) ∧
          ((c.run as).advance id .barrier).2.closed = true := by
    obtain ⟨hgoing, hr⟩ := going_of_pending hnew hsteps hkept hvalues hdisplaced h
    exact barrier_of_going hk hgoing hr ((horderly.run as).open_of_registered hk hr) hfits
  rw [hnew.token] at hrouted
  refine ⟨hfinal, hrouted, hpending, fun hdone => ?_, fun hwait => ?_, fun o ho => ?_,
    fun f hf => ?_⟩
  · by_cases h : ∃ v ∈ c.history id as, v.isFinal = true
    · obtain ⟨v, hv, hlast⟩ := h
      have hnone : v.failure? = none := by
        have houtcome := hfinal v hv hlast
        rw [hdone] at houtcome
        cases hf : v.failure? with
        | none => rfl
        | some e => rw [hf] at houtcome; cases houtcome
      obtain ⟨f, hmem, htoken, rfl⟩ | ⟨e, rfl⟩ := hrouted v hv hlast
      · unfold Event.ofFrame at hv hlast hnone
        split at hv
        next r hdecode =>
          rw [hdecode] at hlast hnone
          exact ⟨f, r, hmem, htoken, htoken ▸ hdecode, hv, by simpa [Event.isFinal] using hlast,
            hnone⟩
        next e hdecode =>
          rw [hdecode] at hnone
          cases hnone
      · cases hnone
    · simp only [not_exists, not_and, Bool.not_eq_true] at h
      obtain hwait | ⟨e, he, -⟩ := hpending h
      · rw [hdone] at hwait; cases hwait
      · rw [hdone] at he; cases he
  · obtain ⟨n, hrun, hread⟩ := exhaust_waiting hwait
    exact ⟨n, by rw [run_append]; exact hrun, hread⟩
  · have hover := over_of_barrier hk (hsteps.sound hnew.sound) ho
    rw [ht] at hover
    exact ⟨hover, forgets_of_not_registered hover.1⟩
  · change ((c.run as).route f).cursors[id]? = _
    rw [getElem?_route f hk, hk, Cursor.receive, if_neg fun h => hf (h.2.symm.trans ht)]

end Events

/-! ### The order of requests -/

theorem act_query (c : Connection) {term : Term} {options : QueryOptions} {exclusive : Bool} :
    (c.act (.query term options exclusive)).1 =
      .done (errorOf (c.query term options exclusive).1) := rfl

/-- No token is taken twice before they wrap around. -/
theorem nodup_taken {s : Settings} {as : List Action}
    (hfew : ((start s).taken as).length < 2 ^ 64) : ((start s).taken as).Nodup := by
  rw [(numbered_start s).taken_eq as]
  have hlt := List.pairwise_lt_range' (s := 0 + 1) (n := ((start s).taken as).length)
  refine List.pairwise_map.mpr (hlt.imp_of_mem fun hm hn hlt h => ?_)
  have hm := (List.mem_range'_1.mp hm).2
  have hn := (List.mem_range'_1.mp hn).2
  exact absurd (ofNat_inj (by omega) (by omega) h) (Nat.ne_of_lt hlt)

/-- A request that has been granted is among those written, and stays where it is. -/
theorem written_of_granted {as₁ as₂ : List Action} {a : Action} {q : Query}
    (hq : a.request? (c.run as₁) = some q) (hreply : ((c.run as₁).act a).1 = .done none) :
    ∃ ws, (c.run (as₁ ++ a :: as₂)).written = (c.run as₁).written ++ q :: ws := by
  obtain ⟨-, e, he⟩ | ⟨k, c₁, hasked⟩ := request_cases _ hq
  · rw [hreply] at he
    cases he
  · obtain ⟨q', hq', hwritten⟩ := hasked.written
    obtain rfl := Option.some.inj (hq.symm.trans hq')
    have hafter : ((c.run as₁).after a).written = (c.run as₁).written ++ [q] := by
      rw [hasked.after]
      exact hwritten
    obtain ⟨ws, hws⟩ := ((c.run as₁).after a).written_run as₂
    exact ⟨ws, by rw [run_append, run_cons, ← hws, hafter, List.append_assoc]; rfl⟩

end Connection
end Reql
