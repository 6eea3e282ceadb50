import Mathlib.Algebra.Ring.Nat
import Mathlib.Data.List.Forall2
import Reql.Proofs.Mock.Assertions
import Reql.Proofs.Mock.DefaultDatabase

/-! The books of a mock: a call counts once it is taken, and is recorded once it is over. -/
namespace Reql.Mock

/-- A call that is over, and what it has returned. -/
structure Completion where
  visit : Visit
  result : Except ClientError Connection

/-- The calls of a run: those that wait to be answered, in the order of the service, those that are
over, in the order in which they ended, and those that were given up. -/
structure Ledger where
  waiting : List Visit
  completed : List Completion
  abandoned : List Visit

namespace Ledger

def empty : Ledger := ⟨[], [], []⟩

/-- The calls that were taken and are not over. -/
def unfinished (l : Ledger) : List Visit :=
  l.waiting ++ l.abandoned

def calls (l : Ledger) : List Visit :=
  l.completed.map (·.visit) ++ l.unfinished

end Ledger

/-- What comes of a call at once: it waits, or it has failed. -/
def Visit.begun (v : Visit) : Except ClientError Claim :=
  (v.mock.begin v.term v.options).1

namespace Service

/-- Enters an action in the books of a service. -/
def enter (s : Service) (l : Ledger) : Action → Ledger
  | .call term options =>
    let v : Visit := ⟨s.mock, term, options⟩
    match v.begun with
    | .ok _ => { l with waiting := l.waiting ++ [v] }
    | .error e => { l with completed := l.completed ++ [⟨v, .error e⟩] }
  | .answer place =>
    match l.waiting[place]?, s.waiting[place]? with
    | some v, some claim =>
      { l with
        waiting := l.waiting.eraseIdx place
        completed := l.completed ++ [⟨v, (s.mock.finish claim).1⟩] }
    | _, _ => l
  | .abandon place =>
    { l with
      waiting := l.waiting.eraseIdx place
      abandoned := l.abandoned ++ l.waiting[place]?.toList }
  | .expect .. | .configure .. => l

def ledger (s : Service) (l : Ledger) : List Action → Ledger
  | [] => l
  | a :: as => (s.after a).ledger (s.enter l a) as

end Service

/-- A record is that of a call that is over. -/
structure Records (x : Execution) (d : Completion) : Prop where
  term : x.term = d.visit.term
  options : x.options = d.visit.mock.effective d.visit.options
  unexpected : x.ending = .unexpected ↔ d.visit.taker? = none
  failed : ∀ e, x.ending = .failed e ↔ d.visit.taker? ≠ none ∧ d.result = .error e
  returned : x.ending = .returned ↔ ∃ c, d.result = .ok c

/-- The books of a service are in order. -/
structure Books (s : Service) (l : Ledger) : Prop where
  waiting : l.waiting.map Visit.begun = s.waiting.map .ok
  log : List.Forall₂ Records s.mock.log l.completed
  abandoned : ∀ v ∈ l.abandoned, v.taker? ≠ none

variable {v : Visit} {claim : Claim} {term : Term} {options : QueryOptions}

theorem Visit.begun_of_untaken (h : v.taker? = none) :
    v.begun = .error (.unexpectedQuery v.term.render) :=
  congrArg Prod.fst (begin_untaken h)

theorem Visit.taken_of_begun (h : v.begun = .ok claim) : v.taker? ≠ none := by
  intro hnone
  rw [begun_of_untaken hnone] at h
  cases h

/-- A call that nobody takes is recorded at once. -/
theorem records_rejection (h : v.taker? = none) :
    Records v.rejection ⟨v, .error (.unexpectedQuery v.term.render)⟩ where
  term := rfl
  options := rfl
  unexpected := iff_of_true rfl h
  failed e := iff_of_false (by simp [Visit.rejection]) fun hne => hne.1 h
  returned := iff_of_false (by simp [Visit.rejection]) (by simp)

/-- A call that is answered is recorded with what it returns. -/
theorem records_answer (h : v.begun = .ok claim) (result : Except ClientError Connection) :
    Records ⟨claim.term, claim.options, .of result⟩ ⟨v, result⟩ where
  term := (query_of_begin h).1
  options := (query_of_begin h).2
  unexpected := iff_of_false (Ending.of_ne_unexpected result) (Visit.taken_of_begun h)
  failed e := by
    have htaken := Visit.taken_of_begun h
    cases result <;> simp [Ending.of, htaken]
  returned := by cases result <;> simp [Ending.of]

/-- What an action does to a service and its books: it is a call that is taken or rejected, it ends
one that waits, or it concerns no call. -/
inductive Entry (s : Service) (l : Ledger) (s' : Service) : Option Visit → Ledger → Prop where
  | other (hlog : s'.mock.log = s.mock.log) (hwaiting : s'.waiting = s.waiting) :
    Entry s l s' none l
  | taken (v : Visit) (claim : Claim) (hbegun : v.begun = .ok claim)
    (hlog : s'.mock.log = s.mock.log) (hwaiting : s'.waiting = s.waiting ++ [claim]) :
    Entry s l s' (some v) { l with waiting := l.waiting ++ [v] }
  | rejected (v : Visit) (hnone : v.taker? = none)
    (hlog : s'.mock.log = s.mock.log ++ [v.rejection]) (hwaiting : s'.waiting = s.waiting) :
    Entry s l s' (some v)
      { l with completed := l.completed ++ [⟨v, .error (.unexpectedQuery v.term.render)⟩] }
  | answered (place : Nat) (v : Visit) (claim : Claim) (result : Except ClientError Connection)
    (hv : l.waiting[place]? = some v) (hbegun : v.begun = .ok claim)
    (hlog : s'.mock.log = s.mock.log ++ [⟨claim.term, claim.options, .of result⟩])
    (hwaiting : s'.waiting = s.waiting.eraseIdx place) :
    Entry s l s' none
      { l with
        waiting := l.waiting.eraseIdx place
        completed := l.completed ++ [⟨v, result⟩] }
  | abandoned (place : Nat) (v : Visit) (hv : l.waiting[place]? = some v)
    (hlog : s'.mock.log = s.mock.log) (hwaiting : s'.waiting = s.waiting.eraseIdx place) :
    Entry s l s' none
      { l with
        waiting := l.waiting.eraseIdx place
        abandoned := l.abandoned ++ [v] }

/-- Who waits in the books waits in the service with what its call has come to. -/
theorem Books.getElem?_waiting {s : Service} {l : Ledger} (h : Books s l) (place : Nat) :
    l.waiting[place]?.map Visit.begun = s.waiting[place]?.map .ok := by
  rw [← List.getElem?_map, ← List.getElem?_map, h.waiting]

/-- Whoever is not done yet has been taken. -/
theorem Books.taken {s : Service} {l : Ledger} (h : Books s l) :
    ∀ v ∈ l.unfinished, v.taker? ≠ none := by
  intro v hv
  rcases List.mem_append.mp hv with hv | hv
  · have hbegun : v.begun ∈ s.waiting.map .ok := h.waiting ▸ List.mem_map_of_mem hv
    obtain ⟨claim, -, hclaim⟩ := List.mem_map.mp hbegun
    exact Visit.taken_of_begun hclaim.symm
  · exact h.abandoned v hv

namespace Service

variable {s : Service} {l : Ledger}

theorem entry_after (h : Books s l) (a : Action) :
    Entry s l (s.after a) (s.visit? a) (s.enter l a) := by
  cases a with
  | expect | configure => exact .other rfl rfl
  | call term options =>
    let v : Visit := ⟨s.mock, term, options⟩
    cases htaker : v.taker? with
    | none =>
      have hafter : s.after (.call term options) =
          { s with mock := s.mock.record term (s.mock.effective options) .unexpected } :=
        after_call_untaken htaker
      have henter : s.enter l (.call term options) = { l with completed :=
          l.completed ++ [⟨v, .error (.unexpectedQuery v.term.render)⟩] } := by
        simp only [enter, Visit.begun_of_untaken htaker, v]
      rw [hafter, henter]
      exact .rejected v htaker rfl rfl
    | some i =>
      obtain ⟨e, he, hafter⟩ := after_call_taken htaker
      obtain ⟨e', he', hbegin⟩ := begin_taken htaker
      obtain rfl := Option.some.inj (he.symm.trans he')
      have hbegun : v.begun = .ok ⟨term, s.mock.effective options, e.answer, e.error, e.gate⟩ :=
        congrArg Prod.fst hbegin
      have henter : s.enter l (.call term options) = { l with waiting := l.waiting ++ [v] } := by
        simp only [enter, hbegun, v]
      have hvisit : s.visit? (.call term options) = some v := rfl
      rw [hvisit, hafter, henter]
      exact .taken v _ hbegun rfl rfl
  | answer place =>
    have hplace := h.getElem?_waiting place
    cases hclaim : s.waiting[place]? with
    | none =>
      rw [hclaim, Option.map_none, Option.map_eq_none_iff] at hplace
      have henter : s.enter l (.answer place) = l := by simp only [enter, hplace]
      rw [after_answer_none hclaim, henter]
      exact .other rfl rfl
    | some claim =>
      rw [hclaim, Option.map_some] at hplace
      obtain ⟨v, hv, hbegun⟩ := Option.map_eq_some_iff.mp hplace
      have henter : s.enter l (.answer place) = { l with
          waiting := l.waiting.eraseIdx place
          completed := l.completed ++ [⟨v, (s.mock.finish claim).1⟩] } := by
        simp only [enter, hv, hclaim]
      rw [after_answer hclaim, henter]
      exact .answered place v claim _ hv hbegun rfl rfl
  | abandon place =>
    cases hv : l.waiting[place]? with
    | none =>
      have hnone := h.getElem?_waiting place
      rw [hv, Option.map_none, eq_comm, Option.map_eq_none_iff] at hnone
      have hafter : (s.after (.abandon place)).waiting = s.waiting :=
        List.eraseIdx_of_length_le (List.getElem?_eq_none_iff.mp hnone)
      have henter : s.enter l (.abandon place) = l := by
        simp only [enter, hv, Option.toList_none, List.append_nil,
          List.eraseIdx_of_length_le (List.getElem?_eq_none_iff.mp hv)]
      rw [henter]
      exact .other rfl hafter
    | some v =>
      have henter : s.enter l (.abandon place) = { l with
          waiting := l.waiting.eraseIdx place
          abandoned := l.abandoned ++ [v] } := by
        simp only [enter, hv, Option.toList_some]
      rw [henter]
      exact .abandoned place v hv rfl rfl

end Service

namespace Entry

variable {s s' : Service} {l l' : Ledger} {visit : Option Visit}

/-- Books in order stay in order. -/
theorem books (h : Entry s l s' visit l') (hb : Books s l) : Books s' l' := by
  have htaken := hb.taken
  obtain ⟨hwaiting, hlog, habandoned⟩ := hb
  have herase {place : Nat} : (l.waiting.eraseIdx place).map Visit.begun =
      (s.waiting.eraseIdx place).map .ok := by
    rw [← List.eraseIdx_map, ← List.eraseIdx_map, hwaiting]
  cases h with
  | other hl hw => exact ⟨hw ▸ hwaiting, hl ▸ hlog, habandoned⟩
  | taken v claim hbegun hl hw =>
    refine ⟨?_, hl ▸ hlog, habandoned⟩
    rw [hw, List.map_append, List.map_append, hwaiting, List.map_singleton, List.map_singleton,
      hbegun]
  | rejected v hnone hl hw =>
    refine ⟨hw ▸ hwaiting, ?_, habandoned⟩
    rw [hl]
    exact List.rel_append hlog (.cons (records_rejection hnone) .nil)
  | answered place v claim result hv hbegun hl hw =>
    refine ⟨hw ▸ herase, ?_, habandoned⟩
    rw [hl]
    exact List.rel_append hlog (.cons (records_answer hbegun result) .nil)
  | abandoned place v hv hl hw =>
    refine ⟨hw ▸ herase, hl ▸ hlog, fun w hw => ?_⟩
    rcases List.mem_append.mp hw with hw | hw
    · exact habandoned w hw
    · obtain rfl := List.mem_singleton.mp hw
      exact htaken w (List.mem_append_left _ (List.mem_of_getElem? hv))

/-- Every call is in the books once. -/
theorem calls (h : Entry s l s' visit l') : l'.calls.Perm (l.calls ++ visit.toList) := by
  classical
  refine List.perm_iff_count.mpr fun w => ?_
  have herase {place : Nat} {v : Visit} (hv : l.waiting[place]? = some v) :
      l.waiting.count w = (l.waiting.eraseIdx place).count w + [v].count w := by
    obtain ⟨hlt, rfl⟩ := List.getElem?_eq_some_iff.mp hv
    rw [← (List.getElem_cons_eraseIdx_perm hlt).count_eq w, List.count_cons, List.count_singleton]
  cases h with
  | other =>
    rw [Option.toList_none, List.append_nil]
  | taken | rejected =>
    simp only [Ledger.calls, Ledger.unfinished, List.count_append, Option.toList_some,
      List.map_append, List.map_singleton]
    omega
  | answered _ _ _ _ hv | abandoned _ _ hv =>
    simp only [Ledger.calls, Ledger.unfinished, List.count_append, Option.toList_none,
      List.map_append, List.map_singleton, herase hv, List.count_nil]
    omega

theorem log (h : Entry s l s' visit l') : s.mock.log <+: s'.mock.log := by
  cases h with
  | other hl | taken _ _ _ hl | abandoned _ _ _ hl => exact hl ▸ List.prefix_refl _
  | rejected _ _ hl | answered _ _ _ _ _ _ hl => exact hl ▸ List.prefix_append _ _

theorem completed (h : Entry s l s' visit l') : l.completed <+: l'.completed := by
  cases h with
  | other | taken | abandoned => exact List.prefix_refl _
  | rejected | answered => exact List.prefix_append _ _

end Entry

/-- The calls that the expectations of a mock have counted. -/
def executed (m : Mock) : Nat :=
  (m.expectations.map (·.executed)).sum

namespace Service

variable {s : Service} {l : Ledger} {as bs : List Action}

theorem ledger_append : s.ledger l (as ++ bs) = (s.run as).ledger (s.ledger l as) bs := by
  induction as generalizing s l with
  | nil => rfl
  | cons a as ih => exact ih

theorem books_run (h : Books s l) (as : List Action) : Books (s.run as) (s.ledger l as) := by
  induction as generalizing s l with
  | nil => exact h
  | cons a as ih => exact ih ((entry_after h a).books h)

theorem calls_run (h : Books s l) (as : List Action) :
    (s.ledger l as).calls.Perm (l.calls ++ s.visits as) := by
  induction as generalizing s l with
  | nil => exact List.Perm.of_eq (List.append_nil _).symm
  | cons a as ih =>
    have hentry := entry_after h a
    rw [visits, ← List.append_assoc]
    exact (ih (hentry.books h)).trans (hentry.calls.append_right _)

theorem grows_run (h : Books s l) (as : List Action) :
    s.mock.log <+: (s.run as).mock.log ∧ l.completed <+: (s.ledger l as).completed := by
  induction as generalizing s l with
  | nil => exact ⟨List.prefix_refl _, List.prefix_refl _⟩
  | cons a as ih =>
    have hentry := entry_after h a
    obtain ⟨hlog, hcompleted⟩ := ih (hentry.books h)
    exact ⟨hentry.log.trans hlog, hentry.completed.trans hcompleted⟩

theorem sum_modify_succ {ns : List Nat} {i : Nat} (h : i < ns.length) :
    (ns.modify i (· + 1)).sum = ns.sum + 1 := by
  have hsplit : ns = ns.take i ++ ns[i] :: ns.drop (i + 1) := by
    rw [List.getElem_cons_drop, List.take_append_drop]
  have hsum := congrArg List.sum hsplit
  rw [List.sum_append, List.sum_cons] at hsum
  rw [List.modify_eq_take_cons_drop h, List.sum_append, List.sum_cons]
  omega

/-- To count one more at a place is to count one more in all. -/
theorem sum_counted {ns : List Nat} {taker : Option Nat} (h : ∀ i ∈ taker, i < ns.length) :
    (ns.mapIdx fun j n => n + if taker = some j then 1 else 0).sum =
      ns.sum + taker.toList.length := by
  cases taker with
  | none =>
    simp only [reduceCtorEq, if_false, Nat.add_zero, mapIdx_id]
    rfl
  | some i =>
    have hmodify : (ns.mapIdx fun j n => n + if some i = some j then 1 else 0) =
        ns.modify i (· + 1) := by
      rw [modify_eq_mapIdx]
      congr 1
      funext j n
      by_cases hij : i = j <;> simp [hij]
    rw [hmodify, sum_modify_succ (h i rfl)]
    rfl

theorem takerOf?_lt {a : Action} {i : Nat} (h : s.takerOf? a = some i) :
    i < s.mock.expectations.length := by
  obtain ⟨v, hv, htaker⟩ := Option.bind_eq_some_iff.mp h
  obtain ⟨e, he, -⟩ := taker?_eq_some.mp htaker
  rw [← mock_of_visit? hv]
  exact (List.getElem?_eq_some_iff.mp he).1

theorem length_takerOf? (s : Service) (a : Action) : (s.takerOf? a).toList.length =
    (s.visit? a).toList.countP fun v => v.taker?.isSome := by
  rw [takerOf?]
  cases s.visit? a with
  | none => rfl
  | some v => cases h : v.taker? <;> simp [h]

/-- An action counts if it is a call that is taken. -/
theorem executed_after (s : Service) (a : Action) : (s.after a).mock.executed =
    s.mock.executed + (s.visit? a).toList.countP fun v => v.taker?.isSome := by
  have hregistered : ((s.registered a).map (·.executed)).sum = 0 := by
    cases a <;> rfl
  have hmap : (s.mock.expectations.mapIdx (s.effect a)).map (·.executed) =
      (s.mock.expectations.map (·.executed)).mapIdx fun i n =>
        n + if s.takerOf? a = some i then 1 else 0 := by
    apply List.ext_getElem?
    intro i
    simp [List.getElem?_mapIdx, effect_executed, Function.comp_def]
  have hlt : ∀ i ∈ s.takerOf? a, i < (s.mock.expectations.map (·.executed)).length := by
    intro i hi
    rw [List.length_map]
    exact takerOf?_lt hi
  rw [executed, expectations_after, List.map_append, List.sum_append, hregistered, hmap,
    sum_counted hlt, length_takerOf?]
  rfl

theorem executed_run (s : Service) (as : List Action) : (s.run as).mock.executed =
    s.mock.executed + (s.visits as).countP fun v => v.taker?.isSome := by
  induction as generalizing s with
  | nil => rfl
  | cons a as ih => rw [run_cons, ih, executed_after, visits, List.countP_append, Nat.add_assoc]

end Service

theorem Records.taken_iff {x : Execution} {d : Completion} (h : Records x d) :
    decide (x.ending ≠ .unexpected) = d.visit.taker?.isSome := by
  rw [Bool.eq_iff_iff, decide_eq_true_iff, ne_eq, h.unexpected, ← ne_eq,
    Option.ne_none_iff_isSome]

theorem countP_records {xs : List Execution} {ds : List Completion}
    (h : List.Forall₂ Records xs ds) : xs.countP (fun x => decide (x.ending ≠ .unexpected)) =
      (ds.map (·.visit)).countP fun v => v.taker?.isSome := by
  induction h with
  | nil => rfl
  | cons hx _ ih => rw [List.map_cons, List.countP_cons, List.countP_cons, ih, hx.taken_iff]

namespace Service

theorem books_start (settings : Settings) : Books (start settings) .empty :=
  ⟨rfl, .nil, by simp [Ledger.empty]⟩

end Service
end Reql.Mock
