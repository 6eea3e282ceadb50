import Reql.Connection.Basic
import Reql.Mock.Expectation
import Reql.Term.Printer

/-! Mocks, which answer expected queries and keep a record of all. -/
namespace Reql
namespace Mock

/-- How a call ended. -/
inductive Ending where
  | returned
  | failed (error : ClientError)
  | unexpected
deriving DecidableEq

/-- The record of a call, with the query as it was run. -/
structure Execution where
  term : Term
  options : QueryOptions
  ending : Ending
deriving DecidableEq

/-- A claimed call: the query as it is run, and how it will be answered. -/
structure Claim where
  term : Term
  options : QueryOptions
  answer : Answer
  error : Option ClientError
  gate : Option Gate
deriving DecidableEq

end Mock

/-- A mock: the settings of the connections it pretends to have, the expectations in the order of
their registration, and the finished calls. -/
structure Mock where
  settings : Settings
  expectations : List Mock.Expectation
  log : List Mock.Execution
deriving DecidableEq

namespace Mock

def start (settings : Settings) : Mock :=
  ⟨settings, [], []⟩

instance : Inhabited Mock := ⟨start default⟩

/-- The options as they are run, with the default database. -/
def effective (m : Mock) (options : QueryOptions) : QueryOptions :=
  options.withDefaultDb m.settings.database

def expect (m : Mock) (term : Term) (options : QueryOptions) : Nat × Mock :=
  (m.expectations.length,
    { m with expectations := m.expectations ++ [.start term (m.effective options)] })

def configure (m : Mock) (index : Nat) (change : Expectation → Expectation) : Mock :=
  { m with expectations := m.expectations.modify index change }

def expectedTerm (m : Mock) (index : Nat) : Term :=
  match m.expectations[index]? with
  | some e => e.term
  | none => .anything

/-- Takes one call from the first live expectation that accepts it. -/
def claimFrom (term : Term) (options : QueryOptions) :
    List Expectation → Option (Expectation × List Expectation)
  | [] => none
  | e :: rest =>
    if e.isLive && e.accepts term options then some (e, e.use :: rest)
    else
      match claimFrom term options rest with
      | some (found, rest) => some (found, e :: rest)
      | none => none

/-- A claim goes to the first live expectation that accepts the query, and changes no other. -/
theorem claimFrom_eq_some_iff {term : Term} {options : QueryOptions} {es es' : List Expectation}
    {e : Expectation} :
    claimFrom term options es = some (e, es') ↔
      ∃ before after, es = before ++ e :: after ∧ es' = before ++ e.use :: after ∧
        (e.isLive && e.accepts term options) = true ∧
        ∀ b ∈ before, (b.isLive && b.accepts term options) = false := by
  induction es generalizing es' with
  | nil => simp [claimFrom]
  | cons a rest ih =>
    by_cases ha : (a.isLive && a.accepts term options) = true
    · simp only [claimFrom, ha, if_true, Option.some.injEq, Prod.mk.injEq]
      constructor
      · rintro ⟨rfl, rfl⟩
        exact ⟨[], rest, rfl, rfl, ha, by simp⟩
      · rintro ⟨before, after, hes, rfl, _, hbefore⟩
        cases before with
        | nil =>
          obtain ⟨rfl, rfl⟩ := List.cons.inj hes
          exact ⟨rfl, rfl⟩
        | cons b before =>
          obtain ⟨rfl, _⟩ := List.cons.inj hes
          have := hbefore a (by simp)
          rw [ha] at this
          contradiction
    · have ha' : (a.isLive && a.accepts term options) = false := by simpa using ha
      simp only [claimFrom, ha', Bool.false_eq_true, if_false]
      constructor
      · intro h
        split at h
        next found rest' hrest =>
          obtain ⟨rfl, rfl⟩ : found = e ∧ a :: rest' = es' := by simpa using h
          obtain ⟨before, after, rfl, rfl, he, hbefore⟩ := ih.mp hrest
          refine ⟨a :: before, after, rfl, rfl, he, fun b hb => ?_⟩
          rcases List.mem_cons.mp hb with rfl | hb
          · exact ha'
          · exact hbefore b hb
        · contradiction
      · rintro ⟨before, after, hes, rfl, he, hbefore⟩
        cases before with
        | nil =>
          obtain ⟨rfl, rfl⟩ := List.cons.inj hes
          rw [ha'] at he
          contradiction
        | cons b before =>
          obtain ⟨rfl, rfl⟩ := List.cons.inj hes
          have hrest : claimFrom term options (before ++ e :: after) =
              some (e, before ++ e.use :: after) :=
            ih.mpr ⟨before, after, rfl, rfl, he, fun c hc => hbefore c (by simp [hc])⟩
          simp [hrest]

/-- A claim fails exactly if no live expectation accepts the query. -/
theorem claimFrom_eq_none_iff {term : Term} {options : QueryOptions} {es : List Expectation} :
    claimFrom term options es = none ↔
      ∀ e ∈ es, (e.isLive && e.accepts term options) = false := by
  induction es with
  | nil => simp [claimFrom]
  | cons a rest ih =>
    by_cases ha : (a.isLive && a.accepts term options) = true
    · simp only [claimFrom, ha, if_true, reduceCtorEq, false_iff]
      intro h
      have := h a (by simp)
      rw [ha] at this
      contradiction
    · have ha' : (a.isLive && a.accepts term options) = false := by simpa using ha
      simp only [claimFrom, ha', Bool.false_eq_true, if_false]
      rw [List.forall_mem_cons, ← ih]
      cases claimFrom term options rest <;> simp [ha']

def record (m : Mock) (term : Term) (options : QueryOptions) (ending : Ending) : Mock :=
  { m with log := m.log ++ [⟨term, options, ending⟩] }

/-- A call begins. The expectation that will answer it is chosen now; a call that none accepts is
over. -/
def begin (m : Mock) (term : Term) (options : QueryOptions) : Except ClientError Claim × Mock :=
  let options := m.effective options
  match claimFrom term options m.expectations with
  | some (e, expectations) =>
    (.ok ⟨term, options, e.answer, e.error, e.gate⟩, { m with expectations })
  | none => (.error (.unexpectedQuery term.render), m.record term options .unexpected)

/-- The answer to a claimed call: an error, or a connection of its own, held only by the cursor of
the call. -/
def Claim.connect (c : Claim) (settings : Settings) : Except ClientError Connection :=
  match c.error with
  | some e => .error e
  | none =>
    match (Connection.start settings).query c.term c.options true with
    | (.ok _, connection) => .ok connection.drop
    | (.error e, _) => .error e

def Ending.of {α : Type} : Except ClientError α → Ending
  | .ok _ => .returned
  | .error e => .failed e

/-- A claimed call, whose gate is open, is answered and recorded. -/
def finish (m : Mock) (c : Claim) : Except ClientError Connection × Mock :=
  let result := c.connect m.settings
  (result, m.record c.term c.options (.of result))

end Mock
end Reql
