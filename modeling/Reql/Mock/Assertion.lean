import Reql.Mock.Basic

/-! What can be asserted of the calls to a mock. -/
namespace Reql.Mock

/-- The number of recorded calls of the query of an expectation. Unexpected calls do not count. -/
def executionCount (m : Mock) (index : Nat) : Nat :=
  match m.expectations[index]? with
  | none => 0
  | some e => m.log.countP fun x => x.ending != .unexpected && e.accepts x.term x.options

/-- Whether an expectation has been executed and has no calls missing. -/
def isMet (m : Mock) (e : Expectation) : Bool :=
  (decide (0 < e.executed) || m.log.any fun x => e.accepts x.term x.options) && !e.repeats.isPending

/-- An assertion that does not hold. -/
inductive AssertionFailure where
  | expectationsUnmet (met total unmet : Nat) (queries : List String)
  | executionCount (expected actual : Nat)
  | notExecuted (query : String)
  | executed (query : String)
deriving DecidableEq, Repr

def AssertionFailure.message : AssertionFailure → String
  | .expectationsUnmet met total unmet queries =>
    "FAIL: " ++ toString met ++ " out of " ++ toString total ++
      " expectation(s) were met.\n\tThe query you are testing needs to be executed " ++
      toString unmet ++ " more times(s)." ++
      String.join (queries.map fun q => "\n\t❌\t" ++ q)
  | .executionCount expected actual =>
    "Expected number of executions (" ++ toString expected ++
      ") does not match the actual number of executions (" ++ toString actual ++ ")."
  | .notExecuted query =>
    "The query \"" ++ query ++ "\" should have been executed, but was not."
  | .executed query =>
    "The query \"" ++ query ++ "\" was executed, but should NOT have been."

/-- Asserts that every expectation is met. The failure lists all that are not. -/
def assertExpectations (m : Mock) : Option AssertionFailure :=
  let unmet := m.expectations.filter fun e => !m.isMet e
  if unmet.isEmpty then none
  else
    let total := m.expectations.length
    some (.expectationsUnmet (total - unmet.length) total unmet.length
      (unmet.map fun e => e.term.render))

/-- Asserts that a query was executed a given number of times. -/
def assertNumber (m : Mock) (index expected : Nat) : Option AssertionFailure :=
  let actual := m.executionCount index
  if actual = expected then none else some (.executionCount expected actual)

/-- Asserts that a query was executed; the failure shows the given term. -/
def assertExecuted (m : Mock) (index : Nat) (query : Term) : Option AssertionFailure :=
  if 0 < m.executionCount index then none else some (.notExecuted query.render)

/-- Asserts that a query was not executed; the failure shows the given term. -/
def assertNotExecuted (m : Mock) (index : Nat) (query : Term) : Option AssertionFailure :=
  if m.executionCount index = 0 then none else some (.executed query.render)

end Reql.Mock
