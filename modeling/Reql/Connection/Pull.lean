import Reql.Connection.Basic

/-! Reading, closing and dropping the cursors of a connection. -/
namespace Reql.Connection

/-- The owner is done with a cursor that has been read to its end. -/
def finish (c : Connection) (id : CursorId) : Connection :=
  match c.cursors[id]? with
  | none => c
  | some k =>
    let c := c.deregister k.token
    if k.exclusive then c.release else c

/-- Reads the next value of a cursor; `none` at the end of its values. The outer `none` means that
the call has to wait: either for an answer that is on its way, or for the one it has just asked
for. -/
def next? (c : Connection) (id : CursorId) :
    Option (Except ClientError (Option Json)) × Connection :=
  match c.cursors[id]? with
  | none => (some (.ok none), c)
  | some k =>
    match k.inbox.step with
    | (.value v, s) => (some (.ok (some v)), c.modifyInbox id fun _ => s)
    | (.ended, s) => (some (.ok none), (c.modifyInbox id fun _ => s).finish id)
    | (.failed e, s) => (some (.error e), (c.modifyInbox id fun _ => s).finish id)
    | (.wait, _) => (none, c)
    | (.fetch, s) =>
      match (c.modifyInbox id fun _ => s).continueQuery k.token with
      | (none, c) => (none, c)
      | (some e, c) => (some (.error e), (c.modifyInbox id Inbox.abandon).finish id)

/-- Waits until the first answer of a cursor is there, and reports an error that comes before any
value. -/
def prime? (c : Connection) (id : CursorId) : Option (Except ClientError Unit) × Connection :=
  match c.cursors[id]? with
  | none => (some (.ok ()), c)
  | some k =>
    match k.inbox.prime with
    | (.ready, _) => (some (.ok ()), c)
    | (.failed e, s) => (some (.error e), (c.modifyInbox id fun _ => s).finish id)
    | (.wait, _) => (none, c)

/-- Closes a cursor and gives the error met, if any. Values not handed out are lost. A server that
has not finished is asked to stop; an exclusive cursor closes its connection instead. -/
def closeCursor (c : Connection) (id : CursorId) : Option ClientError × Connection :=
  match c.cursors[id]? with
  | none => (none, c)
  | some k =>
    if k.inbox.closed then (none, if k.exclusive then c.release else c)
    else
      let c := (c.modifyInbox id Inbox.close).deregister k.token
      if k.exclusive then (none, c.close)
      else if k.inbox.serverDone then (none, c)
      else c.stop k.token

/-- The owner drops a cursor. A server that has not finished is asked to stop, unless the cursor
was exclusive: that ends its connection. A stream that nobody holds any more is given up. -/
def dropCursor (c : Connection) (id : CursorId) : Connection :=
  match c.cursors[id]? with
  | none => c
  | some k =>
    let running := k.inbox.isRunning
    let c := c.modifyInbox id Inbox.drop
    let c := if running then c.deregister k.token else c
    let c := if running && !k.exclusive then (c.stop k.token).2 else c
    let c := if k.exclusive then c.release else c
    { c with cursors := c.cursors.modify id fun k => { k with held := false } }.collect

end Reql.Connection
