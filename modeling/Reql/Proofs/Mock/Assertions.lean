import Reql.Proofs.Mock.Claiming

/-! What the assertions say of a run, once all of its calls are answered. -/
namespace Reql.Mock

def Visit.rejection (v : Visit) : Execution :=
  ⟨v.term, v.mock.effective v.options, .unexpected⟩

theorem Ending.of_ne_unexpected {α : Type} (result : Except ClientError α) :
    Ending.of result ≠ .unexpected := by
  cases result <;> simp [Ending.of]

/-- All expectations that are not met are reported at once. -/
theorem assertExpectations_eq_some_iff {m : Mock} {failure : AssertionFailure} :
    m.assertExpectations = some failure ↔ (∃ e ∈ m.expectations, m.isMet e = false) ∧
      failure = .expectationsUnmet
        (m.expectations.length - (m.expectations.filter fun e => !m.isMet e).length)
        m.expectations.length (m.expectations.filter fun e => !m.isMet e).length
        ((m.expectations.filter fun e => !m.isMet e).map fun e => e.term.render) := by
  rw [assertExpectations]
  split
  next h =>
    have hmet : ¬∃ e ∈ m.expectations, m.isMet e = false := by simpa using h
    simp [hmet]
  next h =>
    have hunmet : ∃ e ∈ m.expectations, m.isMet e = false := by simpa using h
    rw [Option.some.injEq]
    constructor
    · intro hf
      exact ⟨hunmet, hf.symm⟩
    · intro hf
      exact hf.2.symm

theorem assertExpectations_eq_none_iff {m : Mock} :
    m.assertExpectations = none ↔ ∀ e ∈ m.expectations, m.isMet e = true := by
  rw [assertExpectations]
  split
  next h => simpa using h
  next h => simpa using h

namespace Service

/-- Whether a call of a query has been taken, be it answered or not. -/
def HasTaken (s : Service) (term : Term) (options : QueryOptions) : Prop :=
  (∃ x ∈ s.mock.log, x.ending ≠ .unexpected ∧ x.term = term ∧ x.options = options) ∨
    ∃ c ∈ s.waiting, c.term = term ∧ c.options = options

/-- Whether a call that an expectation accepts was rejected before the expectation was there. -/
def missed (s : Service) (as : List Action) (i : Nat) (e : Expectation) : Bool :=
  (s.visits as).any fun v => v.taker?.isNone && decide (v.mock.expectations.length ≤ i) &&
    e.accepts v.term (v.mock.effective v.options)

variable {s : Service} {a : Action} {as : List Action} {i : Nat} {e : Expectation}
  {settings : Settings}

/-- What an expectation accepts never changes. -/
@[simp] theorem effect_accepts (term : Term) (options : QueryOptions) :
    (s.effect a i e).accepts term options = e.accepts term options := by
  simp only [Expectation.accepts, effect_term, effect_options]

theorem getElem?_run (he : s.mock.expectations[i]? = some e) (as : List Action) :
    ∃ d, (s.run as).mock.expectations[i]? = some d ∧ e.executed ≤ d.executed ∧
      d.accepts = e.accepts := by
  induction as generalizing s e with
  | nil => exact ⟨e, he, Nat.le_refl _, rfl⟩
  | cons a as ih =>
    obtain ⟨d, hd, hle, haccepts⟩ := ih (getElem?_after he a)
    have hstep : e.executed ≤ (s.effect a i e).executed := by
      rw [effect_executed]
      omega
    have hsame : (s.effect a i e).accepts = e.accepts := by
      funext term options
      exact effect_accepts term options
    exact ⟨d, hd, Nat.le_trans hstep hle, haccepts.trans hsame⟩

theorem executed_of_exhausted_after
    (h : ∀ e ∈ s.mock.expectations, e.repeats = .exhausted → 0 < e.executed) :
    ∀ e ∈ (s.after a).mock.expectations, e.repeats = .exhausted → 0 < e.executed := by
  intro e he hexhausted
  obtain ⟨i, hi⟩ := List.mem_iff_getElem?.mp he
  rcases getElem?_after_eq_some hi with ⟨d, hd, rfl⟩ | ⟨-, term, options, -, rfl⟩
  · have hprior := h d (List.mem_of_getElem? hd)
    rw [effect_executed]
    by_cases hcount : a.counts i
    · obtain ⟨n, rfl⟩ := hcount
      simp only [effect, if_true, Setting.apply, Repeat.times] at hexhausted
      split at hexhausted <;> contradiction
    · rw [effect_repeats hcount] at hexhausted
      split
      next => omega
      next hother =>
        rw [if_neg hother] at hexhausted
        exact hprior hexhausted
  · simp [Expectation.start] at hexhausted

/-- Only an expectation that has taken a call is exhausted. -/
theorem executed_of_exhausted (settings : Settings) (as : List Action) :
    ∀ e ∈ ((start settings).run as).mock.expectations, e.repeats = .exhausted → 0 < e.executed :=
  run_induction (P := fun s => ∀ e ∈ s.mock.expectations, e.repeats = .exhausted → 0 < e.executed)
    (fun _ _ h => executed_of_exhausted_after h) (by simp [start, Mock.start]) as

theorem HasTaken.after {term : Term} {options : QueryOptions} (h : s.HasTaken term options)
    (hkept : ∀ place, a ≠ .abandon place) : (s.after a).HasTaken term options := by
  cases a with
  | expect | configure => exact h
  | abandon place => exact absurd rfl (hkept place)
  | call term' options' =>
    cases htaker : s.mock.taker? term' options' with
    | none =>
      rw [after_call_untaken htaker]
      rcases h with ⟨x, hx, hquery⟩ | h
      · exact .inl ⟨x, List.mem_append_left _ hx, hquery⟩
      · exact .inr h
    | some j =>
      obtain ⟨d, -, hafter⟩ := after_call_taken htaker
      rw [hafter]
      rcases h with h | ⟨c, hc, hquery⟩
      · exact .inl h
      · exact .inr ⟨c, List.mem_append_left _ hc, hquery⟩
  | answer place =>
    cases hplace : s.waiting[place]? with
    | none => rwa [after_answer_none hplace]
    | some claim =>
      rw [after_answer hplace]
      rcases h with ⟨x, hx, hquery⟩ | ⟨c, hc, hquery⟩
      · exact .inl ⟨x, List.mem_append_left _ hx, hquery⟩
      · obtain ⟨j, hj⟩ := List.mem_iff_getElem?.mp hc
        by_cases hjp : j = place
        · -- the call that is answered moves from the waiting ones to the log
          rw [hjp, hplace] at hj
          obtain rfl := Option.some.inj hj
          exact .inl ⟨_, List.mem_append_right _ (List.mem_singleton.mpr rfl),
            Ending.of_ne_unexpected _, hquery⟩
        · exact .inr ⟨c, List.mem_eraseIdx_iff_getElem?.mpr ⟨j, hjp, hj⟩, hquery⟩

theorem hasTaken_of_visit {v : Visit} (hv : s.visit? a = some v) (h : v.taker? = some i) :
    (s.after a).HasTaken v.term (v.mock.effective v.options) := by
  cases a with
  | call term options =>
    simp only [visit?, Option.some.injEq] at hv
    subst hv
    obtain ⟨d, -, hafter⟩ := after_call_taken h
    rw [hafter]
    exact .inr ⟨_, List.mem_append_right _ (List.mem_singleton.mpr rfl), rfl, rfl⟩
  | expect | configure | answer | abandon => simp [visit?] at hv

/-- What an expectation has taken is still to be seen, unless it was given up. -/
theorem hasTaken_of_executed (hkept : ∀ place, .abandon place ∉ as)
    (he : ((start settings).run as).mock.expectations[i]? = some e) (hexecuted : 0 < e.executed) :
    ∃ term options, ((start settings).run as).HasTaken term options ∧
      e.accepts term options = true := by
  induction as using List.reverseRecOn generalizing e with
  | nil => simp [start, Mock.start] at he
  | append_singleton as a ih =>
    rw [run_append] at he ⊢
    have ha : ∀ place, a ≠ .abandon place := by
      intro place h
      exact hkept place (by simp [h])
    rcases getElem?_after_eq_some he with ⟨d, hd, rfl⟩ | ⟨-, term, options, -, rfl⟩
    · simp only [effect_accepts]
      rw [effect_executed] at hexecuted
      by_cases htaker : ((start settings).run as).takerOf? a = some i
      · obtain ⟨v, hv, hvi⟩ := Option.bind_eq_some_iff.mp htaker
        obtain ⟨d', hd', -, haccepts, -⟩ := taker?_eq_some.mp hvi
        rw [mock_of_visit? hv] at hd'
        obtain rfl := Option.some.inj (hd.symm.trans hd')
        exact ⟨_, _, hasTaken_of_visit hv hvi, haccepts⟩
      · rw [if_neg htaker] at hexecuted
        obtain ⟨term, options, htaken, haccepts⟩ :=
          ih (fun place h => hkept place (by simp [h])) hd hexecuted
        exact ⟨term, options, htaken.after ha, haccepts⟩
    · simp [Expectation.start] at hexecuted

/-- The rejections of a run are its calls that nobody has taken. -/
theorem rejections_after (s : Service) (a : Action) :
    (s.after a).mock.log.filter (fun x => decide (x.ending = .unexpected)) =
      s.mock.log.filter (fun x => decide (x.ending = .unexpected)) ++
        ((s.visit? a).toList.filter (·.taker?.isNone)).map Visit.rejection := by
  cases a with
  | expect | configure | abandon => exact (List.append_nil _).symm
  | call term options =>
    cases htaker : s.mock.taker? term options with
    | none =>
      have hvisit : Visit.taker? ⟨s.mock, term, options⟩ = none := htaker
      rw [after_call_untaken htaker]
      simp [Mock.record, visit?, hvisit, Visit.rejection]
    | some j =>
      have hvisit : Visit.taker? ⟨s.mock, term, options⟩ = some j := htaker
      obtain ⟨d, -, hafter⟩ := after_call_taken htaker
      rw [hafter]
      simp [visit?, hvisit]
  | answer place =>
    cases hplace : s.waiting[place]? with
    | none =>
      rw [after_answer_none hplace]
      exact (List.append_nil _).symm
    | some claim =>
      have hne := Ending.of_ne_unexpected (claim.connect s.mock.settings)
      rw [after_answer hplace]
      simp [Mock.finish, Mock.record, visit?, hne]

theorem rejections_run (s : Service) (as : List Action) :
    (s.run as).mock.log.filter (fun x => decide (x.ending = .unexpected)) =
      s.mock.log.filter (fun x => decide (x.ending = .unexpected)) ++
        ((s.visits as).filter (·.taker?.isNone)).map Visit.rejection := by
  induction as generalizing s with
  | nil => exact (List.append_nil _).symm
  | cons a as ih =>
    rw [run_cons, ih, rejections_after, visits, List.filter_append, List.map_append,
      List.append_assoc]

theorem exists_of_visits {v : Visit} (hv : v ∈ s.visits as) :
    ∃ before a behind, as = before ++ a :: behind ∧ (s.run before).visit? a = some v := by
  induction as generalizing s with
  | nil => simp [visits] at hv
  | cons a as ih =>
    rw [visits, List.mem_append, Option.mem_toList] at hv
    rcases hv with hv | hv
    · exact ⟨[], a, as, rfl, hv⟩
    · obtain ⟨before, b, behind, rfl, hb⟩ := ih hv
      exact ⟨a :: before, b, behind, rfl, hb⟩

/-- A call that an expectation accepts is rejected beside it only once it is exhausted. -/
theorem executed_of_rejected {v : Visit} (hv : v ∈ (start settings).visits as)
    (hnone : v.taker? = none) (he : ((start settings).run as).mock.expectations[i]? = some e)
    (hi : i < v.mock.expectations.length)
    (haccepts : e.accepts v.term (v.mock.effective v.options) = true) : 0 < e.executed := by
  obtain ⟨before, a, behind, rfl, hvisit⟩ := exists_of_visits hv
  have hmock := mock_of_visit? hvisit
  have hd : ((start settings).run before).mock.expectations[i]? =
      some v.mock.expectations[i] := by
    rw [← hmock]
    exact List.getElem?_eq_getElem hi
  obtain ⟨e', he', hle, hsame⟩ := getElem?_run hd (a :: behind)
  rw [← run_append, he] at he'
  obtain rfl := Option.some.inj he'
  have hdead := taker?_eq_none.mp hnone _ (List.getElem_mem hi)
  rw [← hsame, haccepts, Bool.and_true] at hdead
  have hexhausted : v.mock.expectations[i].repeats = .exhausted := by
    simpa [Expectation.isLive] using hdead
  have hpos := executed_of_exhausted settings before _ (List.mem_of_getElem? hd) hexhausted
  omega

theorem executionCount_pos_iff {m : Mock} (he : m.expectations[i]? = some e) :
    0 < m.executionCount i ↔
      ∃ x ∈ m.log, x.ending ≠ .unexpected ∧ e.accepts x.term x.options = true := by
  simp [executionCount, he, List.countP_pos_iff]

theorem isMet_iff {m : Mock} : m.isMet e = true ↔
    (0 < e.executed ∨ ∃ x ∈ m.log, e.accepts x.term x.options = true) ∧
      e.repeats.isPending = false := by
  simp [isMet]

theorem missed_iff : s.missed as i e = true ↔ ∃ v ∈ s.visits as, v.taker? = none ∧
    v.mock.expectations.length ≤ i ∧ e.accepts v.term (v.mock.effective v.options) = true := by
  simp [missed, and_assoc]

theorem mem_log_of_rejected {v : Visit} (hv : v ∈ s.visits as) (hnone : v.taker? = none) :
    v.rejection ∈ (s.run as).mock.log := by
  have hmem : v.rejection ∈
      (s.run as).mock.log.filter fun x => decide (x.ending = .unexpected) := by
    rw [rejections_run]
    apply List.mem_append_right
    exact List.mem_map_of_mem (List.mem_filter.mpr ⟨hv, by rw [hnone]; rfl⟩)
  exact (List.mem_filter.mp hmem).1

theorem visit_of_rejection {x : Execution} (hx : x ∈ ((start settings).run as).mock.log)
    (hunexpected : x.ending = .unexpected) :
    ∃ v ∈ (start settings).visits as, v.taker? = none ∧ x = v.rejection := by
  have hmem : x ∈ ((start settings).run as).mock.log.filter
      fun x => decide (x.ending = .unexpected) :=
    List.mem_filter.mpr ⟨hx, by rw [hunexpected]; rfl⟩
  rw [rejections_run] at hmem
  simp only [start, Mock.start, List.filter_nil, List.nil_append] at hmem
  obtain ⟨v, hv, rfl⟩ := List.mem_map.mp hmem
  obtain ⟨hv, hnone⟩ := List.mem_filter.mp hv
  exact ⟨v, hv, Option.isNone_iff_eq_none.mp hnone, rfl⟩

/-- With all calls answered, an expectation is met if its handle counts an execution, or a call
that it accepts was rejected before it was registered, and no call is missing. -/
theorem isMet_iff_counted (hkept : ∀ place, .abandon place ∉ as)
    (hdone : ((start settings).run as).waiting = [])
    (he : ((start settings).run as).mock.expectations[i]? = some e) :
    ((start settings).run as).mock.isMet e = true ↔
      (0 < ((start settings).run as).mock.executionCount i ∨
        (start settings).missed as i e = true) ∧ e.repeats.isPending = false := by
  rw [isMet_iff, executionCount_pos_iff he, missed_iff]
  have hcounted : 0 < e.executed → ∃ x ∈ ((start settings).run as).mock.log,
      x.ending ≠ .unexpected ∧ e.accepts x.term x.options = true := by
    intro hexecuted
    obtain ⟨term, options, htaken, haccepts⟩ := hasTaken_of_executed hkept he hexecuted
    rcases htaken with ⟨x, hx, hne, rfl, rfl⟩ | ⟨c, hc, -⟩
    · exact ⟨x, hx, hne, haccepts⟩
    · simp [hdone] at hc
  apply and_congr_left
  intro _
  constructor
  · rintro (hexecuted | ⟨x, hx, haccepts⟩)
    · exact .inl (hcounted hexecuted)
    · by_cases hne : x.ending = .unexpected
      · obtain ⟨v, hv, hnone, rfl⟩ := visit_of_rejection hx hne
        by_cases hi : i < v.mock.expectations.length
        · exact .inl (hcounted (executed_of_rejected hv hnone he hi haccepts))
        · exact .inr ⟨v, hv, hnone, by omega, haccepts⟩
      · exact .inl ⟨x, hx, hne, haccepts⟩
  · rintro (⟨x, hx, -, haccepts⟩ | ⟨v, hv, hnone, -, haccepts⟩)
    · exact .inr ⟨x, hx, haccepts⟩
    · exact .inr ⟨v.rejection, mem_log_of_rejected hv hnone, haccepts⟩

/-- Whether an expectation is executed by the count of its handle, or has missed a call, and no
call is missing. -/
def fulfilled (settings : Settings) (as : List Action) (i : Nat) (e : Expectation) : Bool :=
  (decide (0 < ((start settings).run as).mock.executionCount i) ||
    (start settings).missed as i e) && !e.repeats.isPending

theorem isMet_eq_fulfilled (hkept : ∀ place, .abandon place ∉ as)
    (hdone : ((start settings).run as).waiting = [])
    (he : ((start settings).run as).mock.expectations[i]? = some e) :
    ((start settings).run as).mock.isMet e = fulfilled settings as i e := by
  rw [Bool.eq_iff_iff, isMet_iff_counted hkept hdone he]
  simp [fulfilled]

theorem filter_eq_zipIdx {α : Type} {xs : List α} {p : α → Bool} {q : Nat → α → Bool}
    (h : ∀ i x, xs[i]? = some x → p x = q i x) :
    xs.filter p = (xs.zipIdx.filter fun x => q x.2 x.1).map Prod.fst := by
  have hzip : xs.filter p = (xs.zipIdx.filter (p ∘ Prod.fst)).map Prod.fst := by
    rw [← List.filter_map, List.zipIdx_map_fst]
  rw [hzip]
  congr 1
  apply List.filter_congr
  intro x hx
  exact h x.2 x.1 (List.mem_zipIdx_iff_getElem?.mp hx)

/-- With all calls answered, the expectations that an assertion of all of them reports are those
that their handles do not count as executed or that have calls missing, in the order of their
registration, but for the ones that have missed a call. -/
theorem assertions_agree (settings : Settings) (as : List Action)
    (hkept : ∀ place, .abandon place ∉ as) (hdone : ((start settings).run as).waiting = []) :
    let m := ((start settings).run as).mock
    (∀ i query, m.assertExecuted i query = none ↔ 0 < m.executionCount i) ∧
    (m.assertExpectations = none ↔
      ∀ i e, m.expectations[i]? = some e → fulfilled settings as i e = true) ∧
    (∀ failure, m.assertExpectations = some failure → ∃ met total unmet queries,
      failure = .expectationsUnmet met total unmet queries ∧ met + unmet = total ∧
      total = m.expectations.length ∧ unmet = queries.length ∧
      queries = (m.expectations.zipIdx.filter fun x => !fulfilled settings as x.2 x.1).map
        fun x => x.1.term.render) ∧
    ((∀ i e, m.expectations[i]? = some e → (start settings).missed as i e = false) →
      (m.assertExpectations = none ↔ ∀ i e, m.expectations[i]? = some e →
        0 < m.executionCount i ∧ e.repeats.isPending = false)) := by
  intro m
  have hmet : ∀ i e, m.expectations[i]? = some e → m.isMet e = fulfilled settings as i e :=
    fun i e he => isMet_eq_fulfilled hkept hdone he
  have hnone : m.assertExpectations = none ↔
      ∀ i e, m.expectations[i]? = some e → fulfilled settings as i e = true := by
    rw [assertExpectations_eq_none_iff]
    constructor
    · intro hall i e he
      rw [← hmet i e he]
      exact hall e (List.mem_of_getElem? he)
    · intro hall e hmem
      obtain ⟨i, he⟩ := List.mem_iff_getElem?.mp hmem
      rw [hmet i e he]
      exact hall i e he
  refine ⟨?_, hnone, ?_, ?_⟩
  · intro i query
    simp [assertExecuted, Nat.pos_iff_ne_zero]
  · intro failure hfailure
    have hqueries := filter_eq_zipIdx (p := fun e => !m.isMet e)
      (q := fun i e => !fulfilled settings as i e) fun i e he => congrArg _ (hmet i e he)
    obtain ⟨-, rfl⟩ := assertExpectations_eq_some_iff.mp hfailure
    refine ⟨_, _, _, _, rfl, ?_, rfl, (List.length_map _).symm, ?_⟩
    · exact Nat.sub_add_cancel (List.length_filter_le _ _)
    · rw [hqueries, List.map_map]
      rfl
  · intro hmissed
    rw [hnone]
    apply forall₃_congr
    intro i e he
    simp [fulfilled, hmissed i e he, m]

/-- One call that is taken and answered with an error. -/
theorem assertions_agree_answered :
    let as : List Action := [.expect .anything .empty, .configure 0 (.error .emptyResult),
      .call .anything .empty, .answer 0]
    (∀ place, .abandon place ∉ as) ∧ ((start default).run as).waiting = [] ∧
      ∃ e, ((start default).run as).mock.expectations[0]? = some e ∧
        fulfilled default as 0 e = true := by
  intro as
  have hkept : ∀ place, .abandon place ∉ as := by simp [as]
  have hdone : ((start default).run as).waiting = [] := by decide +kernel
  have hmet : ((start default).run as).mock.assertExpectations = none := by decide +kernel
  have hlt : 0 < ((start default).run as).mock.expectations.length := by decide +kernel
  have hexpected := List.getElem?_eq_getElem hlt
  obtain ⟨-, hall, -⟩ := assertions_agree default as hkept hdone
  exact ⟨hkept, hdone, _, hexpected, hall.mp hmet 0 _ hexpected⟩

/-- A call that was rejected before its expectation was registered counts for this as executed,
although no call was. -/
theorem met_without_execution :
    let m := ((start default).run [.call .anything .empty, .expect .anything .empty]).mock
    ¬(m.assertExpectations = none ↔ ∀ i e, m.expectations[i]? = some e →
      0 < m.executionCount i ∧ e.repeats.isPending = false) := by
  intro m h
  have hmet : m.assertExpectations = none := by decide +kernel
  have hcount : m.executionCount 0 = 0 := by decide +kernel
  have hexpected : m.expectations[0]? = some (.start .anything .empty) := by decide +kernel
  have hpos := (h.mp hmet 0 _ hexpected).1
  omega

end Service
end Reql.Mock
