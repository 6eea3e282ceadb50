import Reql.Mock.Assertion

/-! Mocks at work: calls come and go while expectations are registered and configured. -/
namespace Reql.Mock

/-- What an expectation can be told. -/
inductive Setting where
  | answer (answer : Answer)
  | error (error : ClientError)
  | times (count : Nat)
  | gate (gate : Gate)
deriving DecidableEq

def Setting.apply : Setting → Expectation → Expectation
  | .answer a, e => { e with answer := a }
  | .error failure, e => { e with error := some failure }
  | .times n, e => { e with repeats := .times n }
  | .gate g, e => { e with gate := some g }

/-- The expectation that answers a call: the first live one that accepts it. -/
def taker? (m : Mock) (term : Term) (options : QueryOptions) : Option Nat :=
  m.expectations.findIdx? fun e => e.isLive && e.accepts term (m.effective options)

variable {m : Mock} {term : Term} {options : QueryOptions} {i : Nat}

theorem taker?_eq_some : m.taker? term options = some i ↔ ∃ e, m.expectations[i]? = some e ∧
    e.isLive = true ∧ e.accepts term (m.effective options) = true ∧
      ∀ d ∈ m.expectations.take i, (d.isLive && d.accepts term (m.effective options)) = false := by
  rw [taker?, List.findIdx?_eq_some_iff_getElem]
  constructor
  · rintro ⟨hlt, hp, hbefore⟩
    rw [Bool.and_eq_true] at hp
    refine ⟨_, List.getElem?_eq_getElem hlt, hp.1, hp.2, fun d hd => ?_⟩
    obtain ⟨j, hj, rfl⟩ := List.mem_take_iff_getElem.mp hd
    have hji : j < i := by omega
    simpa using hbefore j hji
  · rintro ⟨e, he, hlive, haccepts, hbefore⟩
    obtain ⟨hlt, rfl⟩ := List.getElem?_eq_some_iff.mp he
    refine ⟨hlt, by rw [hlive, haccepts]; rfl, fun j hj => ?_⟩
    have hmem : m.expectations[j] ∈ m.expectations.take i :=
      List.mem_take_iff_getElem.mpr ⟨j, by omega, rfl⟩
    rw [hbefore _ hmem]
    decide

theorem taker?_eq_none : m.taker? term options = none ↔
    ∀ e ∈ m.expectations, (e.isLive && e.accepts term (m.effective options)) = false := by
  rw [taker?, List.findIdx?_eq_none_iff]

/-- A call that is taken uses its taker once and waits for the answer that this has at the time. -/
theorem begin_taken (h : m.taker? term options = some i) : ∃ e, m.expectations[i]? = some e ∧
    m.begin term options =
      (.ok ⟨term, m.effective options, e.answer, e.error, e.gate⟩,
        { m with expectations := m.expectations.modify i Expectation.use }) := by
  obtain ⟨e, he, hlive, haccepts, hbefore⟩ := taker?_eq_some.mp h
  obtain ⟨hlt, rfl⟩ := List.getElem?_eq_some_iff.mp he
  have hsplit : m.expectations =
      m.expectations.take i ++ m.expectations[i] :: m.expectations.drop (i + 1) := by
    rw [List.getElem_cons_drop, List.take_append_drop]
  have hmodify : m.expectations.modify i Expectation.use =
      m.expectations.take i ++ m.expectations[i].use :: m.expectations.drop (i + 1) :=
    List.modify_eq_take_cons_drop hlt
  have hclaim : claimFrom term (m.effective options) m.expectations =
      some (m.expectations[i], m.expectations.modify i Expectation.use) :=
    claimFrom_eq_some_iff.mpr ⟨_, _, hsplit, hmodify, by rw [hlive, haccepts]; rfl, hbefore⟩
  exact ⟨_, he, by simp only [begin, hclaim]⟩

/-- A call that nobody takes is unexpected. -/
theorem begin_untaken (h : m.taker? term options = none) : m.begin term options =
    (.error (.unexpectedQuery term.render),
      m.record term (m.effective options) .unexpected) := by
  have hclaim : claimFrom term (m.effective options) m.expectations = none :=
    claimFrom_eq_none_iff.mpr (taker?_eq_none.mp h)
  simp only [begin, hclaim]

/-- A mock at work, with the calls that it has taken and not answered yet. -/
structure Service where
  mock : Mock
  waiting : List Claim
deriving DecidableEq

/-- What can happen to a mock at one time. A call that waits, for its gate or for others to go on,
is answered at any later time, or given up. -/
inductive Action where
  | expect (term : Term) (options : QueryOptions)
  | configure (index : Nat) (setting : Setting)
  | call (term : Term) (options : QueryOptions)
  | answer (place : Nat)
  | abandon (place : Nat)
deriving DecidableEq

def Action.counts (a : Action) (i : Nat) : Prop :=
  ∃ n, a = .configure i (.times n)

/-- A call, with the mock as it finds it. -/
structure Visit where
  mock : Mock
  term : Term
  options : QueryOptions

def Visit.taker? (v : Visit) : Option Nat :=
  v.mock.taker? v.term v.options

namespace Service

def start (settings : Settings) : Service :=
  ⟨.start settings, []⟩

def after (s : Service) : Action → Service
  | .expect term options => { s with mock := (s.mock.expect term options).2 }
  | .configure index setting => { s with mock := s.mock.configure index setting.apply }
  | .call term options =>
    match s.mock.begin term options with
    | (.ok claim, mock) => ⟨mock, s.waiting ++ [claim]⟩
    | (.error _, mock) => ⟨mock, s.waiting⟩
  | .answer place =>
    match s.waiting[place]? with
    | some claim => ⟨(s.mock.finish claim).2, s.waiting.eraseIdx place⟩
    | none => s
  | .abandon place => { s with waiting := s.waiting.eraseIdx place }

def run (s : Service) (as : List Action) : Service :=
  as.foldl after s

@[simp] theorem run_nil (s : Service) : s.run [] = s := rfl

@[simp] theorem run_cons (s : Service) (a : Action) (as : List Action) :
    s.run (a :: as) = (s.after a).run as := rfl

@[simp] theorem run_append (s : Service) (as bs : List Action) :
    s.run (as ++ bs) = (s.run as).run bs :=
  List.foldl_append

/-- What is kept by every action is kept by every run. -/
theorem run_induction {P : Service → Prop} (hstep : ∀ s a, P s → P (s.after a)) {s : Service}
    (hs : P s) (as : List Action) : P (s.run as) := by
  induction as generalizing s with
  | nil => exact hs
  | cons a as ih => exact ih (hstep s a hs)

/-- The call that an action is, with the mock as it finds it. -/
def visit? (s : Service) : Action → Option Visit
  | .call term options => some ⟨s.mock, term, options⟩
  | _ => none

def takerOf? (s : Service) (a : Action) : Option Nat :=
  (s.visit? a).bind Visit.taker?

/-- The calls of a run, each with the mock as it finds it. -/
def visits (s : Service) : List Action → List Visit
  | [] => []
  | a :: as => (s.visit? a).toList ++ (s.after a).visits as

/-- What an action does to the expectation at a place. -/
def effect (s : Service) (a : Action) (i : Nat) (e : Expectation) : Expectation :=
  match a with
  | .configure index setting => if index = i then setting.apply e else e
  | a => if s.takerOf? a = some i then e.use else e

def registered (s : Service) : Action → List Expectation
  | .expect term options => [.start term (s.mock.effective options)]
  | _ => []

variable {s : Service} {a : Action} {as bs : List Action} {e : Expectation} {place : Nat}

theorem visits_append :
    s.visits (as ++ bs) = s.visits as ++ (s.run as).visits bs := by
  induction as generalizing s with
  | nil => rfl
  | cons a as ih => simp only [List.cons_append, visits, ih, run_cons, List.append_assoc]

theorem after_call_taken (h : s.mock.taker? term options = some i) :
    ∃ e, s.mock.expectations[i]? = some e ∧ s.after (.call term options) =
      ⟨{ s.mock with expectations := s.mock.expectations.modify i Expectation.use },
        s.waiting ++ [⟨term, s.mock.effective options, e.answer, e.error, e.gate⟩]⟩ := by
  obtain ⟨e, he, hbegin⟩ := begin_taken h
  exact ⟨e, he, by simp only [after, hbegin]⟩

theorem after_call_untaken (h : s.mock.taker? term options = none) :
    s.after (.call term options) =
      { s with mock := s.mock.record term (s.mock.effective options) .unexpected } := by
  simp only [after, begin_untaken h]

theorem after_answer {claim : Claim} (h : s.waiting[place]? = some claim) :
    s.after (.answer place) = ⟨(s.mock.finish claim).2, s.waiting.eraseIdx place⟩ := by
  simp only [after, h]

theorem after_answer_none (h : s.waiting[place]? = none) : s.after (.answer place) = s := by
  simp only [after, h]

theorem modify_eq_mapIdx {α : Type} (xs : List α) (i : Nat) (f : α → α) :
    xs.modify i f = xs.mapIdx fun j x => if i = j then f x else x := by
  apply List.ext_getElem?
  intro j
  rw [List.getElem?_modify, List.getElem?_mapIdx]
  by_cases hij : i = j <;> simp [hij]

theorem mapIdx_id {α : Type} (xs : List α) : (xs.mapIdx fun _ x => x) = xs := by
  apply List.ext_getElem?
  intro j
  simp

/-- Only a configuration and a call that is taken have an effect. -/
theorem mapIdx_effect_of_none {a : Action} (hnone : s.takerOf? a = none)
    (hne : ∀ index setting, a ≠ .configure index setting) :
    s.mock.expectations.mapIdx (s.effect a) = s.mock.expectations := by
  have hid : s.effect a = fun _ e => e := by
    funext i e
    cases a with
    | configure index setting => exact absurd rfl (hne index setting)
    | expect | call | answer | abandon => simp only [effect, hnone, reduceCtorEq, if_false]
  rw [hid, mapIdx_id]

/-- An action works on each expectation by itself, and registers at the end. -/
theorem expectations_after (s : Service) (a : Action) : (s.after a).mock.expectations =
    s.mock.expectations.mapIdx (s.effect a) ++ s.registered a := by
  cases a with
  | expect term options =>
    rw [mapIdx_effect_of_none rfl (by simp)]
    rfl
  | configure index setting =>
    have heffect : s.effect (.configure index setting) =
        fun i e => if index = i then setting.apply e else e := rfl
    rw [heffect, ← modify_eq_mapIdx]
    exact (List.append_nil _).symm
  | call term options =>
    change _ = _ ++ []
    rw [List.append_nil]
    cases h : s.mock.taker? term options with
    | none =>
      have htaker : s.takerOf? (.call term options) = none := h
      rw [after_call_untaken h, mapIdx_effect_of_none htaker (by simp)]
      rfl
    | some j =>
      have htaker : s.takerOf? (.call term options) = some j := h
      have heffect : s.effect (.call term options) =
          fun i e => if j = i then e.use else e := by
        funext i e
        simp only [effect, htaker, Option.some.injEq]
      obtain ⟨e, -, hafter⟩ := after_call_taken h
      rw [hafter, heffect, ← modify_eq_mapIdx]
  | answer place =>
    rw [mapIdx_effect_of_none rfl (by simp)]
    change _ = _ ++ []
    rw [List.append_nil]
    cases h : s.waiting[place]? with
    | none => rw [after_answer_none h]
    | some claim =>
      rw [after_answer h]
      rfl
  | abandon place =>
    rw [mapIdx_effect_of_none rfl (by simp)]
    exact (List.append_nil _).symm

theorem getElem?_after (h : s.mock.expectations[i]? = some e) (a : Action) :
    (s.after a).mock.expectations[i]? = some (s.effect a i e) := by
  have hlt : i < s.mock.expectations.length := (List.getElem?_eq_some_iff.mp h).1
  have hlt' : i < (s.mock.expectations.mapIdx (s.effect a)).length := by
    rw [List.length_mapIdx]
    exact hlt
  rw [expectations_after, List.getElem?_append_left hlt', List.getElem?_mapIdx, h]
  rfl

/-- Each expectation was there before, or the action has registered it. -/
theorem getElem?_after_eq_some (h : (s.after a).mock.expectations[i]? = some e) :
    (∃ d, s.mock.expectations[i]? = some d ∧ e = s.effect a i d) ∨
      i = s.mock.expectations.length ∧
        ∃ term options, a = .expect term options ∧
          e = .start term (s.mock.effective options) := by
  by_cases hlt : i < s.mock.expectations.length
  · have hd := List.getElem?_eq_getElem hlt
    have hafter := getElem?_after hd a
    rw [hafter] at h
    exact .inl ⟨_, hd, (Option.some.inj h).symm⟩
  · right
    rw [expectations_after, List.getElem?_append_right (by rw [List.length_mapIdx]; omega),
      List.length_mapIdx] at h
    cases a with
    | configure | call | answer | abandon => simp [registered] at h
    | expect term options =>
      have hi : i - s.mock.expectations.length = 0 := by
        have := (List.getElem?_eq_some_iff.mp h).1
        simp only [registered, List.length_singleton] at this
        omega
      rw [hi] at h
      exact ⟨by omega, term, options, rfl, (Option.some.inj h).symm⟩

@[simp] theorem effect_term : (s.effect a i e).term = e.term := by
  cases a with
  | configure index setting =>
    simp only [effect]
    split
    · cases setting <;> rfl
    · rfl
  | expect | call | answer | abandon =>
    simp only [effect]
    split <;> rfl

@[simp] theorem effect_options : (s.effect a i e).options = e.options := by
  cases a with
  | configure index setting =>
    simp only [effect]
    split
    · cases setting <;> rfl
    · rfl
  | expect | call | answer | abandon =>
    simp only [effect]
    split <;> rfl

theorem effect_executed : (s.effect a i e).executed =
    e.executed + if s.takerOf? a = some i then 1 else 0 := by
  cases a with
  | configure index setting =>
    simp only [effect, takerOf?, visit?, Option.bind_none, reduceCtorEq, if_false]
    split
    · cases setting <;> rfl
    · rfl
  | expect | call | answer | abandon =>
    simp only [effect]
    split <;> rfl

/-- Only a new count changes the repeats of an expectation other than by use. -/
theorem effect_repeats (hcount : ¬a.counts i) : (s.effect a i e).repeats =
    if s.takerOf? a = some i then e.repeats.use else e.repeats := by
  cases a with
  | configure index setting =>
    simp only [effect, takerOf?, visit?, Option.bind_none, reduceCtorEq, if_false]
    split
    next hindex =>
      cases setting with
      | times n => exact absurd ⟨n, by rw [hindex]⟩ hcount
      | answer | error | gate => rfl
    next => rfl
  | expect | call | answer | abandon =>
    simp only [effect]
    split <;> rfl

@[simp] theorem settings_after (s : Service) (a : Action) :
    (s.after a).mock.settings = s.mock.settings := by
  cases a with
  | expect | configure | abandon => rfl
  | call term options =>
    cases h : s.mock.taker? term options with
    | none => rw [after_call_untaken h]; rfl
    | some j =>
      obtain ⟨e, -, hafter⟩ := after_call_taken h
      rw [hafter]
  | answer place =>
    cases h : s.waiting[place]? with
    | none => rw [after_answer_none h]
    | some claim => rw [after_answer h]; rfl

end Service
end Reql.Mock
