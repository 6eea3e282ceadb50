import Reql.Json.Basic

/-! Where mocked queries take their values from. -/
namespace Reql.Mock

/-- The values that go into one answer. -/
abbrev Chunk := List Json

/-- The place of a source among those that mocks share. -/
abbrev SourceId := Nat

/-- Tells the readers of a source apart. -/
abbrev ReaderId := Nat

/-- What a request to a source gives: values, the word that there are no more, or neither yet. -/
inductive Supply where
  | chunk (values : Chunk)
  | exhausted
  | wait
deriving DecidableEq

/-- A source that any number of readers share. A generator is asked for one entry at a time, where
`none` says that there are no more values, as does everything after the last entry. Chunks are
pushed into a feed until it is closed; its readers wait for them in the order of their requests. -/
inductive Source where
  | generator (entries : List (Option Chunk))
  | feed (queue : List Chunk) (closed : Bool) (waiting : List ReaderId)
deriving DecidableEq

namespace Source

instance : Inhabited Source := ⟨generator []⟩

def ofChunks (chunks : List Chunk) : Source :=
  .generator (chunks.map some)

def emptyFeed : Source :=
  .feed [] false []

/-- The line of readers after a request by one that may stand in it already. -/
def lineUp (reader : ReaderId) (waiting : List ReaderId) : List ReaderId :=
  if reader ∈ waiting then waiting else waiting ++ [reader]

/-- A feed serves the reader at the head of its line. -/
def serveFirst (reader : ReaderId) (line : List ReaderId) :
    List Chunk → Bool → Supply × Source
  | values :: rest, closed => (.chunk values, .feed rest closed (line.erase reader))
  | [], true => (.exhausted, .feed [] true (line.erase reader))
  | [], false => (.wait, .feed [] false line)

/-- A request by a reader. A reader of a feed that finds nothing, or others before it, waits. -/
def take (reader : ReaderId) : Source → Supply × Source
  | .generator [] => (.exhausted, .generator [])
  | .generator (none :: rest) => (.exhausted, .generator rest)
  | .generator (some values :: rest) => (.chunk values, .generator rest)
  | .feed queue closed waiting =>
    let line := lineUp reader waiting
    if line.head? = some reader then serveFirst reader line queue closed
    else (.wait, .feed queue closed line)

/-- A reader waits no longer. -/
def leave (reader : ReaderId) : Source → Source
  | .generator entries => .generator entries
  | .feed queue closed waiting => .feed queue closed (waiting.erase reader)

/-- Pushes a chunk; a closed feed refuses it. -/
def push (values : Chunk) : Source → Bool × Source
  | .generator entries => (false, .generator entries)
  | .feed queue closed waiting =>
    if closed then (false, .feed queue closed waiting)
    else (true, .feed (queue ++ [values]) closed waiting)

/-- Closes a feed; the chunks in it are still handed out. -/
def close : Source → Source
  | .generator entries => .generator entries
  | .feed queue _ waiting => .feed queue true waiting

def chunks : Source → List Chunk
  | .generator entries => entries.filterMap id
  | .feed queue _ _ => queue

def Supply.toList : Supply → List Chunk
  | .chunk values => [values]
  | .exhausted | .wait => []

@[simp] theorem chunks_ofChunks (chunks : List Chunk) : (ofChunks chunks).chunks = chunks := by
  simp [ofChunks, Source.chunks]

/-- A request takes the first chunk or none, and loses nothing. -/
theorem toList_take_append_chunks (s : Source) (reader : ReaderId) :
    Supply.toList (s.take reader).1 ++ (s.take reader).2.chunks = s.chunks := by
  match s with
  | .generator [] => rfl
  | .generator (none :: _) => rfl
  | .generator (some _ :: _) => rfl
  | .feed queue closed waiting =>
    simp only [take]
    split
    · cases queue with
      | nil => cases closed <;> rfl
      | cons values rest => rfl
    · rfl

@[simp] theorem chunks_leave (s : Source) (reader : ReaderId) :
    (s.leave reader).chunks = s.chunks := by
  cases s <;> rfl

@[simp] theorem chunks_close (s : Source) : s.close.chunks = s.chunks := by
  cases s <;> rfl

/-- A chunk that is pushed goes to the end of the feed, and one that is refused goes nowhere. -/
theorem chunks_push (s : Source) (values : Chunk) :
    (s.push values).2.chunks = s.chunks ++ if (s.push values).1 then [values] else [] := by
  match s with
  | .generator _ => simp [push]
  | .feed _ closed _ => cases closed <;> simp [push, chunks]

end Source
end Reql.Mock
