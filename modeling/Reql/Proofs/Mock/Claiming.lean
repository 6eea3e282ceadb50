import Mathlib.Data.List.Induction
import Reql.Proofs.Mock.Service

/-! Which expectation answers which calls, over a whole run. -/
namespace Reql.Mock

namespace Repeat

/-- Which of the calls that come to an expectation, one after the other, are answered by it. -/
def answers : Repeat → Nat → List Bool
  | .unlimited, calls => List.replicate calls true
  | .remaining count, calls =>
    List.replicate (min count calls) true ++ List.replicate (calls - count) false
  | .exhausted, calls => List.replicate calls false

theorem answers_zero (r : Repeat) : r.answers 0 = [] := by
  cases r <;> simp [answers]

theorem answers_succ {r : Repeat} (hr : r ≠ .remaining 0) (calls : Nat) :
    r.answers (calls + 1) = decide (r ≠ .exhausted) :: r.use.answers calls := by
  cases r with
  | unlimited => rfl
  | exhausted => rfl
  | remaining count =>
    have hpos : 0 < count := by
      apply Nat.pos_of_ne_zero
      intro h
      exact hr (congrArg _ h)
    rw [use]
    split
    next h =>
      have hmin : min count (calls + 1) = min (count - 1) calls + 1 := by omega
      have hsub : calls + 1 - count = calls - (count - 1) := by omega
      simp [answers, hmin, hsub, List.replicate_succ]
    next h =>
      have hone : count = 1 := by omega
      simp [answers, hone, List.replicate_succ]

end Repeat

namespace Visit

/-- Whether a call comes to an expectation: this accepts it, and no earlier live one does. -/
def comesTo (v : Visit) (i : Nat) : Bool :=
  match v.mock.expectations[i]? with
  | some e => e.accepts v.term (v.mock.effective v.options) &&
    (v.mock.expectations.take i).all fun d =>
      !(d.isLive && d.accepts v.term (v.mock.effective v.options))
  | none => false

/-- The first live expectation behind a place that accepts the call. -/
def next? (v : Visit) (i : Nat) : Option Nat :=
  ((v.mock.expectations.drop (i + 1)).findIdx? fun e =>
    e.isLive && e.accepts v.term (v.mock.effective v.options)).map (· + (i + 1))

variable {v : Visit} {i : Nat} {e : Expectation}

theorem comesTo_of_taker? (h : v.taker? = some i) : v.comesTo i = true := by
  obtain ⟨e, he, -, haccepts, hbefore⟩ := taker?_eq_some.mp h
  have hall : (v.mock.expectations.take i).all (fun d =>
      !(d.isLive && d.accepts v.term (v.mock.effective v.options))) = true := by
    rw [List.all_eq_true]
    intro d hd
    rw [hbefore d hd]
    rfl
  simp only [comesTo, he, haccepts, hall, Bool.and_self]

/-- A live expectation takes what comes to it; what comes to an exhausted one goes on to the
next. -/
theorem taker?_of_comesTo (he : v.mock.expectations[i]? = some e) (h : v.comesTo i = true) :
    v.taker? = if e.isLive then some i else v.next? i := by
  simp only [comesTo, he, Bool.and_eq_true, List.all_eq_true, Bool.not_eq_true'] at h
  obtain ⟨haccepts, hbefore⟩ := h
  obtain ⟨hlt, rfl⟩ := List.getElem?_eq_some_iff.mp he
  by_cases hlive : v.mock.expectations[i].isLive = true
  · rw [if_pos hlive]
    exact taker?_eq_some.mpr ⟨_, he, hlive, haccepts, hbefore⟩
  · rw [if_neg hlive]
    have hnone : (v.mock.expectations.take i).findIdx? (fun d =>
        d.isLive && d.accepts v.term (v.mock.effective v.options)) = none :=
      List.findIdx?_eq_none_iff.mpr hbefore
    have hsplit : v.mock.expectations =
        v.mock.expectations.take i ++
          v.mock.expectations[i] :: v.mock.expectations.drop (i + 1) := by
      rw [List.getElem_cons_drop, List.take_append_drop]
    have hlength : (v.mock.expectations.take i).length = i := by
      rw [List.length_take]
      omega
    have hdead : (v.mock.expectations[i].isLive &&
        v.mock.expectations[i].accepts v.term (v.mock.effective v.options)) = false := by
      simp [hlive]
    have hsearch : v.taker? = (v.mock.expectations.take i ++ v.mock.expectations[i] ::
        v.mock.expectations.drop (i + 1)).findIdx? (fun d =>
          d.isLive && d.accepts v.term (v.mock.effective v.options)) := by
      rw [← hsplit]
      rfl
    rw [hsearch, List.findIdx?_append, hnone, Option.none_or, List.findIdx?_cons, hdead, hlength]
    simp only [Bool.false_eq_true, if_false, Option.map_map, next?]
    congr 1
    funext j
    simp only [Function.comp_apply]
    omega

theorem lt_of_next? {j : Nat} (h : v.next? i = some j) : i < j := by
  obtain ⟨k, -, hk⟩ := Option.map_eq_some_iff.mp h
  omega

end Visit

namespace Service
variable {s : Service} {as : List Action} {i : Nat} {e : Expectation}

theorem mock_of_visit? {v : Visit} {a : Action} (h : s.visit? a = some v) : v.mock = s.mock := by
  cases a with
  | call term options =>
    simp only [visit?, Option.some.injEq] at h
    rw [← h]
  | expect | configure | answer | abandon => simp [visit?] at h

theorem repeats_ne_zero_after {a : Action}
    (h : ∀ e ∈ s.mock.expectations, e.repeats ≠ .remaining 0) :
    ∀ e ∈ (s.after a).mock.expectations, e.repeats ≠ .remaining 0 := by
  intro e he
  obtain ⟨i, hi⟩ := List.mem_iff_getElem?.mp he
  rcases getElem?_after_eq_some hi with ⟨d, hd, rfl⟩ | ⟨-, term, options, -, rfl⟩
  · have hkept := h d (List.mem_of_getElem? hd)
    by_cases hcount : a.counts i
    · obtain ⟨n, rfl⟩ := hcount
      simp only [effect, if_true]
      exact Repeat.times_ne_remaining_zero n
    · rw [effect_repeats hcount]
      split
      · exact Repeat.use_ne_remaining_zero _
      · exact hkept
  · simp [Expectation.start]

/-- The calls that come to an expectation are answered by it for as long as its count lasts. -/
theorem taken_of_coming (he : s.mock.expectations[i]? = some e) (hzero : e.repeats ≠ .remaining 0)
    (hcount : ∀ a ∈ as, ¬a.counts i) :
    ((s.visits as).filter (·.comesTo i)).map (fun v => decide (v.taker? = some i)) =
      e.repeats.answers ((s.visits as).filter (·.comesTo i)).length := by
  induction as generalizing s e with
  | nil => exact (Repeat.answers_zero _).symm
  | cons a as ih =>
    obtain ⟨ha, has⟩ := List.forall_mem_cons.mp hcount
    have hafter := getElem?_after he a
    have hrepeats := effect_repeats (s := s) (e := e) ha
    have hrest := ih hafter
      (by rw [hrepeats]; split; exact Repeat.use_ne_remaining_zero _; exact hzero) has
    cases hv : s.visit? a with
    | none =>
      have hnone : s.takerOf? a = none := by rw [takerOf?, hv]; rfl
      simp only [hnone, reduceCtorEq, if_false] at hrepeats
      simp only [visits, hv, Option.toList_none, List.nil_append]
      rw [hrest, hrepeats]
    | some v =>
      have htaker : s.takerOf? a = v.taker? := by rw [takerOf?, hv]; rfl
      have hmock := mock_of_visit? hv
      simp only [visits, hv, Option.toList_some, List.singleton_append]
      by_cases hcomes : v.comesTo i = true
      · have hv := Visit.taker?_of_comesTo (by rw [hmock]; exact he) hcomes
        simp only [List.filter_cons, hcomes, if_true, List.map_cons, List.length_cons]
        rw [Repeat.answers_succ hzero, hrest, hrepeats, htaker, hv]
        by_cases hdead : e.repeats = .exhausted
        · have hlive : e.isLive = false := by simp [Expectation.isLive, hdead]
          have hne : v.next? i ≠ some i := by
            intro h
            exact absurd (Visit.lt_of_next? h) (Nat.lt_irrefl i)
          simp [hlive, hne, hdead, Repeat.use]
        · have hlive : e.isLive = true := by simp [Expectation.isLive, hdead]
          simp [hlive, hdead]
      · have hne : v.taker? ≠ some i := fun h => hcomes (Visit.comesTo_of_taker? h)
        simp only [List.filter_cons, hcomes, Bool.false_eq_true, if_false]
        rw [hrest, hrepeats, htaker, if_neg hne]

variable {settings : Settings}

theorem unlimited_of_uncounted (he : ((start settings).run as).mock.expectations[i]? = some e)
    (hcount : ∀ a ∈ as, ¬a.counts i) : e.repeats = .unlimited := by
  induction as using List.reverseRecOn generalizing e with
  | nil => simp [start, Mock.start] at he
  | append_singleton as a ih =>
    rw [run_append] at he
    have ha : ¬a.counts i := hcount a (by simp)
    rcases getElem?_after_eq_some he with ⟨d, hd, rfl⟩ | ⟨-, term, options, -, rfl⟩
    · have hprior := ih hd (fun b hb => hcount b (by simp [hb]))
      rw [effect_repeats ha, hprior]
      split <;> rfl
    · rfl

theorem length_le_run (s : Service) (as : List Action) :
    s.mock.expectations.length ≤ (s.run as).mock.expectations.length := by
  induction as generalizing s with
  | nil => exact Nat.le_refl _
  | cons a as ih =>
    have hstep : s.mock.expectations.length ≤ (s.after a).mock.expectations.length := by
      rw [expectations_after, List.length_append, List.length_mapIdx]
      omega
    exact Nat.le_trans hstep (ih (s.after a))

theorem lt_of_visits {v : Visit} (hv : v ∈ s.visits as) (h : v.taker? = some i) :
    i < (s.run as).mock.expectations.length := by
  induction as generalizing s with
  | nil => simp [visits] at hv
  | cons a as ih =>
    rw [visits, List.mem_append, Option.mem_toList] at hv
    rcases hv with hv | hv
    · obtain ⟨e, he, -⟩ := taker?_eq_some.mp h
      have hlt := (List.getElem?_eq_some_iff.mp he).1
      rw [mock_of_visit? hv] at hlt
      exact Nat.lt_of_lt_of_le hlt (length_le_run s (a :: as))
    · exact ih hv

/-- An expectation counts the calls that it has taken. -/
theorem executed_eq (he : ((start settings).run as).mock.expectations[i]? = some e) :
    e.executed = ((start settings).visits as).countP fun v => decide (v.taker? = some i) := by
  induction as using List.reverseRecOn generalizing e with
  | nil => simp [start, Mock.start] at he
  | append_singleton as a ih =>
    rw [run_append] at he
    rw [visits_append, List.countP_append]
    rcases getElem?_after_eq_some he with ⟨d, hd, rfl⟩ | ⟨hi, term, options, rfl, rfl⟩
    · rw [effect_executed, ih hd, takerOf?]
      congr 1
      cases hv : ((start settings).run as).visit? a with
      | none => simp [visits, hv]
      | some v => simp [visits, hv, List.countP_cons]
    · have hbefore : ((start settings).visits as).countP
          (fun v => decide (v.taker? = some i)) = 0 := by
        rw [List.countP_eq_zero]
        intro v hv htaker
        have hlt := lt_of_visits hv (of_decide_eq_true htaker)
        omega
      rw [hbefore]
      rfl

/-- What holds of a mock after a run, and of all that may follow. -/
structure Exact (settings : Settings) (as : List Action) (s : Service) : Prop where
  /-- A call is answered as the first live expectation that accepts it says, which is used once,
  and no other is changed; a call that none accepts is unexpected and changes none. -/
  call : ∀ term options,
    (∃ before e behind, s.mock.expectations = before ++ e :: behind ∧
      (e.isLive && e.accepts term (s.mock.effective options)) = true ∧
      (∀ d ∈ before, (d.isLive && d.accepts term (s.mock.effective options)) = false) ∧
      s.mock.begin term options =
        (.ok ⟨term, s.mock.effective options, e.answer, e.error, e.gate⟩,
          { s.mock with expectations := before ++ e.use :: behind })) ∨
    (∀ d ∈ s.mock.expectations, (d.isLive && d.accepts term (s.mock.effective options)) = false) ∧
      s.mock.begin term options =
        (.error (.unexpectedQuery term.render), { s.mock with
          log := s.mock.log ++ [⟨term, s.mock.effective options, .unexpected⟩] })
  /-- The end of a call, now or later, changes no expectation. -/
  finish : ∀ place, (s.after (.answer place)).mock.expectations = s.mock.expectations ∧
    (s.after (.abandon place)).mock.expectations = s.mock.expectations
  positive : ∀ e ∈ s.mock.expectations, e.repeats ≠ .remaining 0
  executed : ∀ i e, s.mock.expectations[i]? = some e →
    e.executed = ((start settings).visits as).countP fun v => decide (v.taker? = some i)
  /-- After it is told a number of calls, an expectation answers that many of those that come to
  it, the first ones. Zero is no limit. -/
  counted : ∀ i n bs, i < s.mock.expectations.length → (∀ b ∈ bs, ¬b.counts i) →
    let coming := ((s.after (.configure i (.times n))).visits bs).filter (·.comesTo i)
    coming.map (fun v => decide (v.taker? = some i)) =
      if n = 0 then List.replicate coming.length true
      else List.replicate (min n coming.length) true ++ List.replicate (coming.length - n) false
  /-- An expectation that is never told a number answers all that come to it. -/
  uncounted : ∀ i bs, i < s.mock.expectations.length → (∀ b ∈ as ++ bs, ¬b.counts i) →
    ∀ v ∈ s.visits bs, v.comesTo i = true → v.taker? = some i
  /-- A call that comes to an expectation and is not answered by it goes to the next. -/
  passed : ∀ v ∈ (start settings).visits as, ∀ i, v.comesTo i = true →
    v.taker? = some i ∨ v.taker? = v.next? i

theorem begin_cases (m : Mock) (term : Term) (options : QueryOptions) :
    (∃ before e behind, m.expectations = before ++ e :: behind ∧
      (e.isLive && e.accepts term (m.effective options)) = true ∧
      (∀ d ∈ before, (d.isLive && d.accepts term (m.effective options)) = false) ∧
      m.begin term options = (.ok ⟨term, m.effective options, e.answer, e.error, e.gate⟩,
        { m with expectations := before ++ e.use :: behind })) ∨
    (∀ d ∈ m.expectations, (d.isLive && d.accepts term (m.effective options)) = false) ∧
      m.begin term options = (.error (.unexpectedQuery term.render), { m with
        log := m.log ++ [⟨term, m.effective options, .unexpected⟩] }) := by
  cases hclaim : claimFrom term (m.effective options) m.expectations with
  | none =>
    right
    constructor
    · exact claimFrom_eq_none_iff.mp hclaim
    · simp only [begin, hclaim]
      rfl
  | some found =>
    left
    obtain ⟨e, rest⟩ := found
    obtain ⟨before, behind, hsplit, rfl, htakes, hbefore⟩ := claimFrom_eq_some_iff.mp hclaim
    exact ⟨before, e, behind, hsplit, htakes, hbefore, by simp only [begin, hclaim]⟩

theorem expectations_after_end (s : Service) (place : Nat) :
    (s.after (.answer place)).mock.expectations = s.mock.expectations ∧
      (s.after (.abandon place)).mock.expectations = s.mock.expectations := by
  constructor
  · cases h : s.waiting[place]? with
    | none => rw [after_answer_none h]
    | some claim => rw [after_answer h]; rfl
  · rfl

theorem positive_run (settings : Settings) (as : List Action) :
    ∀ e ∈ ((start settings).run as).mock.expectations, e.repeats ≠ .remaining 0 :=
  run_induction (P := fun s => ∀ e ∈ s.mock.expectations, e.repeats ≠ .remaining 0)
    (fun _ _ h => repeats_ne_zero_after h) (by simp [start, Mock.start]) as

theorem counted_of_times {n : Nat} (hi : i < s.mock.expectations.length)
    (hcount : ∀ a ∈ as, ¬a.counts i) :
    let coming := ((s.after (.configure i (.times n))).visits as).filter (·.comesTo i)
    coming.map (fun v => decide (v.taker? = some i)) =
      if n = 0 then List.replicate coming.length true
      else List.replicate (min n coming.length) true ++
        List.replicate (coming.length - n) false := by
  have hconfigured := getElem?_after (List.getElem?_eq_getElem hi) (.configure i (.times n))
  have htold : (s.effect (.configure i (.times n)) i s.mock.expectations[i]).repeats =
      .times n := by
    simp only [effect, if_true]
    rfl
  have hanswers := taken_of_coming hconfigured
    (by rw [htold]; exact Repeat.times_ne_remaining_zero n) hcount
  rw [htold] at hanswers
  intro coming
  rw [hanswers, Repeat.times]
  split <;> rfl

theorem taker?_of_uncounted {v : Visit} (he : s.mock.expectations[i]? = some e)
    (hunlimited : e.repeats = .unlimited) (hcount : ∀ a ∈ as, ¬a.counts i)
    (hv : v ∈ s.visits as) (hcomes : v.comesTo i = true) : v.taker? = some i := by
  have hanswers := taken_of_coming he (by simp [hunlimited]) hcount
  rw [hunlimited] at hanswers
  have hmem : decide (v.taker? = some i) ∈
      ((s.visits as).filter (·.comesTo i)).map fun v => decide (v.taker? = some i) :=
    List.mem_map_of_mem (List.mem_filter.mpr ⟨hv, hcomes⟩)
  rw [hanswers] at hmem
  exact of_decide_eq_true (List.eq_of_mem_replicate hmem)

theorem passed_of_comesTo {v : Visit} (hcomes : v.comesTo i = true) :
    v.taker? = some i ∨ v.taker? = v.next? i := by
  cases he : v.mock.expectations[i]? with
  | none => simp [Visit.comesTo, he] at hcomes
  | some e =>
    rw [Visit.taker?_of_comesTo he hcomes]
    split
    · exact .inl rfl
    · exact .inr rfl

/-- Claims are exact after every run, whatever the calls wait for. -/
theorem claims_exact (settings : Settings) (as : List Action) :
    Exact settings as ((start settings).run as) where
  call := begin_cases _
  finish := expectations_after_end _
  positive := positive_run settings as
  executed _ _ he := executed_eq he
  counted _ _ _ hi hcount := counted_of_times hi hcount
  uncounted i bs hi hcount v hv hcomes := by
    have he := List.getElem?_eq_getElem hi
    have hunlimited := unlimited_of_uncounted he fun a ha => hcount a (by simp [ha])
    exact taker?_of_uncounted he hunlimited (fun b hb => hcount b (by simp [hb])) hv hcomes
  passed _ _ _ hcomes := passed_of_comesTo hcomes

end Service
end Reql.Mock
