import Reql.Mock.Server
import Reql.Query.Options

/-! Expected queries and how they are answered. -/
namespace Reql.Mock

/-- The values of an answer: a chunk, handed out once to every call, or a shared source. -/
inductive Answer where
  | chunk (values : Chunk)
  | source (id : SourceId)
deriving DecidableEq

namespace Answer

/-- The answer with a fixed value. An array gives its elements, any other value itself. -/
def ofValue : Json → Answer
  | .arr values => .chunk values
  | value => .chunk [value]

/-- The answer of an expectation that was not told one is empty. -/
def default : Answer :=
  .chunk []

def stock : Answer → Stock
  | .chunk values => .own (some values)
  | .source id => .shared id

end Answer

inductive Repeat where
  | unlimited
  | remaining (count : Nat)
  | exhausted
deriving DecidableEq, Repr

namespace Repeat

/-- The given number of calls; zero sets no limit. -/
def times (count : Nat) : Repeat :=
  if count = 0 then .unlimited else .remaining count

/-- One call fewer. -/
def use : Repeat → Repeat
  | .unlimited => .unlimited
  | .remaining count => if 1 < count then .remaining (count - 1) else .exhausted
  | .exhausted => .exhausted

theorem times_ne_remaining_zero (count : Nat) : times count ≠ .remaining 0 := by
  unfold times
  split
  · simp
  · intro h
    injection h with h
    contradiction

theorem use_ne_remaining_zero (r : Repeat) : r.use ≠ .remaining 0 := by
  cases r with
  | unlimited => simp [use]
  | exhausted => simp [use]
  | remaining count =>
    rw [use]
    split
    · intro h
      injection h with h
      omega
    · simp

def isPending : Repeat → Bool
  | .remaining _ => true
  | _ => false

end Repeat

/-- The place of a gate among those that calls wait at. -/
abbrev GateId := Nat

/-- What a call waits for before it is answered: a number of seconds, or a gate to open. -/
inductive Gate where
  | after (seconds : Nat)
  | untilOpen (gate : GateId)
deriving DecidableEq, Repr

/-- An expected query. `executed` counts the calls that it has claimed. -/
structure Expectation where
  term : Term
  options : QueryOptions
  answer : Answer
  error : Option ClientError
  repeats : Repeat
  gate : Option Gate
  executed : Nat
deriving DecidableEq

namespace Expectation

/-- The expectation of a query, answered with an empty result any number of times. -/
def start (term : Term) (options : QueryOptions) : Expectation :=
  ⟨term, options, .default, none, .unlimited, none, 0⟩

/-- Whether a query is the expected one, up to the numbering of function variables. -/
def accepts (e : Expectation) (term : Term) (options : QueryOptions) : Bool :=
  match e.term.matchesWith term .empty with
  | (true, m) => (e.options.matchesWith options m).1
  | (false, _) => false

def isLive (e : Expectation) : Bool :=
  e.repeats != .exhausted

def use (e : Expectation) : Expectation :=
  { e with repeats := e.repeats.use, executed := e.executed + 1 }

end Expectation
end Reql.Mock
