/-! The kinds of operation a term can ask for. -/
namespace Reql

/-- The kind of a term, as numbered by the wire protocol. -/
inductive Term.Kind where
  | datum
  | makeArray
  | makeObj
  | var
  | javascript
  | error
  | implicitVar
  | db
  | table
  | get
  | eq
  | ne
  | lt
  | le
  | gt
  | ge
  | not
  | add
  | sub
  | mul
  | div
  | getField
  | pluck
  | map
  | filter
  | orderBy
  | count
  | update
  | delete
  | insert
  | dbCreate
  | dbDrop
  | tableCreate
  | tableDrop
  | or
  | and
  | func
  | skip
  | limit
  | asc
  | desc
  | getAll
  | changes
  | bracket
deriving DecidableEq, Repr

namespace Term.Kind

def code : Kind → Nat
  | .datum => 1
  | .makeArray => 2
  | .makeObj => 3
  | .var => 10
  | .javascript => 11
  | .error => 12
  | .implicitVar => 13
  | .db => 14
  | .table => 15
  | .get => 16
  | .eq => 17
  | .ne => 18
  | .lt => 19
  | .le => 20
  | .gt => 21
  | .ge => 22
  | .not => 23
  | .add => 24
  | .sub => 25
  | .mul => 26
  | .div => 27
  | .getField => 31
  | .pluck => 33
  | .map => 38
  | .filter => 39
  | .orderBy => 41
  | .count => 43
  | .update => 53
  | .delete => 54
  | .insert => 56
  | .dbCreate => 57
  | .dbDrop => 58
  | .tableCreate => 60
  | .tableDrop => 61
  | .or => 66
  | .and => 67
  | .func => 69
  | .skip => 70
  | .limit => 71
  | .asc => 73
  | .desc => 74
  | .getAll => 78
  | .changes => 152
  | .bracket => 170

def name : Kind → String
  | .datum => "expr"
  | .makeArray => "makeArray"
  | .makeObj => "makeObj"
  | .var => "var"
  | .javascript => "js"
  | .error => "error"
  | .implicitVar => "row"
  | .db => "db"
  | .table => "table"
  | .get => "get"
  | .eq => "eq"
  | .ne => "ne"
  | .lt => "lt"
  | .le => "le"
  | .gt => "gt"
  | .ge => "ge"
  | .not => "not"
  | .add => "add"
  | .sub => "sub"
  | .mul => "mul"
  | .div => "div"
  | .getField => "field"
  | .pluck => "pluck"
  | .map => "map"
  | .filter => "filter"
  | .orderBy => "orderBy"
  | .count => "count"
  | .update => "update"
  | .delete => "delete"
  | .insert => "insert"
  | .dbCreate => "dbCreate"
  | .dbDrop => "dbDrop"
  | .tableCreate => "tableCreate"
  | .tableDrop => "tableDrop"
  | .or => "or"
  | .and => "and"
  | .func => "func"
  | .skip => "skip"
  | .limit => "limit"
  | .asc => "asc"
  | .desc => "desc"
  | .getAll => "getAll"
  | .changes => "changes"
  | .bracket => "bracket"

theorem code_lt (k : Kind) : k.code < 0x10000000000000000 := by
  cases k <;> decide

theorem code_injective {k l : Kind} (h : k.code = l.code) : k = l := by
  cases k <;> cases l <;> first | rfl | simp [code] at h

end Term.Kind
end Reql
