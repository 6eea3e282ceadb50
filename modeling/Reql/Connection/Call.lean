import Reql.Connection.Pull

/-! Calls on cursors that may have to wait, and how they go on. -/
namespace Reql

/-- A call in progress. `all` keeps the values it has read, the latest first. `run` waits for the
first answer; `exec` does so too and then closes the cursor; `barrier` reads to the end. These
three have a cursor of their own. `stream` takes the next item of a cursor read as a stream. -/
inductive Call where
  | next
  | all (values : List Json)
  | one
  | stream
  | run
  | exec
  | barrier
deriving DecidableEq

/-- What a call gives. `ready` says that the cursor can be used, `done` that there is none. -/
inductive Outcome where
  | value (value : Json)
  | ended
  | values (values : List Json)
  | ready
  | done
  | failed (error : ClientError)
deriving DecidableEq

namespace Connection

/-- Reads values until there are no more; as many steps as values are buffered suffice, and one for
the end. -/
def collectAll (id : CursorId) : Nat → List Json → Connection → (Outcome ⊕ Call) × Connection
  | 0, values, c => (.inr (.all values), c)
  | steps + 1, values, c =>
    match c.next? id with
    | (none, c) => (.inr (.all values), c)
    | (some (.error e), c) => (.inl (.failed e), c)
    | (some (.ok none), c) => (.inl (.values values.reverse), c)
    | (some (.ok (some v)), c) => collectAll id steps (v :: values) c

/-- Reads and forgets values until there are no more. -/
def exhaust (id : CursorId) : Nat → Connection → (Outcome ⊕ Call) × Connection
  | 0, c => (.inr .barrier, c)
  | steps + 1, c =>
    match c.next? id with
    | (none, c) => (.inr .barrier, c)
    | (some (.error e), c) => (.inl (.failed e), c.dropCursor id)
    | (some (.ok none), c) => (.inl .done, c.dropCursor id)
    | (some (.ok (some _)), c) => exhaust id steps c

/-- The number of values that a cursor can hand out at once. -/
def buffered (c : Connection) (id : CursorId) : Nat :=
  ((c.cursors[id]?.map fun k => k.inbox.buffer.length).getD 0)

/-- Goes on with a call on a cursor as far as it can: to its outcome, or to the call that is left
to do when more has arrived. -/
def advance (c : Connection) (id : CursorId) : Call → (Outcome ⊕ Call) × Connection
  | .next =>
    match c.next? id with
    | (none, c) => (.inr .next, c)
    | (some (.error e), c) => (.inl (.failed e), c)
    | (some (.ok none), c) => (.inl .ended, c)
    | (some (.ok (some v)), c) => (.inl (.value v), c)
  | .all values => collectAll id (c.buffered id + 1) values c
  | .one =>
    match c.next? id with
    | (none, c) => (.inr .one, c)
    | (some (.error e), c) => (.inl (.failed e), c)
    | (some (.ok first), c) =>
      match c.closeCursor id, first with
      | (some e, c), _ => (.inl (.failed e), c)
      | (none, c), some v => (.inl (.value v), c)
      | (none, c), none => (.inl (.failed .emptyResult), c)
  | .stream =>
    match c.next? id with
    | (none, c) => (.inr .stream, c)
    | (some (.error e), c) => (.inl (.failed e), c)
    | (some (.ok none), c) => (.inl .ended, c.dropCursor id)
    | (some (.ok (some v)), c) => (.inl (.value v), c)
  | .run =>
    match c.prime? id with
    | (none, c) => (.inr .run, c)
    | (some (.error e), c) => (.inl (.failed e), c.dropCursor id)
    | (some (.ok ()), c) => (.inl .ready, c)
  | .exec =>
    match c.prime? id with
    | (none, c) => (.inr .exec, c)
    | (some (.error e), c) => (.inl (.failed e), c.dropCursor id)
    | (some (.ok ()), c) =>
      match c.closeCursor id with
      | (some e, c) => (.inl (.failed e), c.dropCursor id)
      | (none, c) => (.inl .done, c.dropCursor id)
  | .barrier => exhaust id (c.buffered id + 1) c

end Connection
end Reql
