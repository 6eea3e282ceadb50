import Reql.Term.Basic

/-! Terms as they are written: method chains and functions with named arguments. -/
namespace Reql

/-- A term being written. A `lambda` names its parameters, and `arg` refers to them; numbers are
given to them only when the whole expression is elaborated. Optional arguments of `op` stand in
written order. -/
inductive Expr where
  | term (value : Term)
  | arg (name : String)
  | op (kind : Term.Kind) (args : List Expr) (optargs : List (String × Expr))
  | func (params : List VarId) (body : Expr)
  | lambda (params : List String) (body : Expr)
  | withOptarg (receiver : Expr) (name : String) (value : Expr)
deriving Inhabited

namespace Expr

def datum (j : Json) : Expr := .term (.datum j)

def ofString (s : String) : Expr := .term (.ofString s)

def ofInt64 (n : Int64) : Expr := .term (.ofInt64 n)

/-- The wildcard of comparisons. -/
def anything : Expr := .term .anything

def method (receiver : Expr) (kind : Term.Kind) (args : List Expr) : Expr :=
  .op kind (receiver :: args) []

def db (name : String) : Expr := .term (.db name)

def table (name : String) : Expr := .op .table [ofString name] []

def dbCreate (name : String) : Expr := .op .dbCreate [ofString name] []

def dbDrop (name : String) : Expr := .op .dbDrop [ofString name] []

def tableCreate (name : String) : Expr := .op .tableCreate [ofString name] []

/-- Ascending order by a field. -/
def asc (field : String) : Expr := .op .asc [ofString field] []

/-- Descending order by a field. -/
def desc (field : String) : Expr := .op .desc [ofString field] []

def tableOf (e : Expr) (name : String) : Expr := e.method .table [ofString name]

/-- The document with a primary key. -/
def get (e key : Expr) : Expr := e.method .get [key]

/-- The documents with several keys. -/
def getAll (e : Expr) (keys : List Expr) : Expr := e.method .getAll keys

def filter (e predicate : Expr) : Expr := e.method .filter [predicate]

def map (e f : Expr) : Expr := e.method .map [f]

def insert (e documents : Expr) : Expr := e.method .insert [documents]

def update (e patch : Expr) : Expr := e.method .update [patch]

def delete (e : Expr) : Expr := e.method .delete []

def limit (e : Expr) (n : Int64) : Expr := e.method .limit [ofInt64 n]

def skip (e : Expr) (n : Int64) : Expr := e.method .skip [ofInt64 n]

def count (e : Expr) : Expr := e.method .count []

def orderBy (e key : Expr) : Expr := e.method .orderBy [key]

def pluck (e : Expr) (fields : List String) : Expr := e.method .pluck (fields.map ofString)

def field (e : Expr) (name : String) : Expr := e.method .bracket [ofString name]

def eq (e other : Expr) : Expr := e.method .eq [other]

def ne (e other : Expr) : Expr := e.method .ne [other]

def gt (e other : Expr) : Expr := e.method .gt [other]

def lt (e other : Expr) : Expr := e.method .lt [other]

/-- Sum or concatenation. -/
def add (e other : Expr) : Expr := e.method .add [other]

def and (e other : Expr) : Expr := e.method .and [other]

def or (e other : Expr) : Expr := e.method .or [other]

/-- The feed of changes. -/
def changes (e : Expr) : Expr := e.method .changes []

end Expr
end Reql
