import Reql.Expr.Basic

/-! Elaboration of written terms: parameters get numbers from a counter. -/
namespace Reql.Expr

/-- The given count of consecutive numbers, and the number after them. -/
def freshIds (next : VarId) : Nat → List VarId × VarId
  | 0 => ([], next)
  | n + 1 =>
    let r := freshIds (next + 1) n
    (next :: r.1, r.2)

/-- What parameters mean inside a body. Of parameters with one name the later counts, and an inner
parameter hides an outer one. -/
def bindParams (scope : List (String × VarId)) (params : List String) (ids : List VarId) :
    List (String × VarId) :=
  (params.zip ids).reverse ++ scope

mutual

/-- The term an expression stands for, and the counter afterwards. A function takes its numbers
before its body does. None if an argument is used outside of its function. -/
def elaborate (scope : List (String × VarId)) (next : VarId) : Expr → Option (Term × VarId)
  | .term t => some (t, next)
  | .arg name => (scope.lookup name).map fun id => (.var id, next)
  | .op k args optargs => do
    let (as, next) ← elaborateArgs scope next args
    let (fs, next) ← elaborateOptargs scope next optargs
    return (fs.foldl (fun t f => t.withOptarg f.1 f.2) (.op k as []), next)
  | .func params body => do
    let (t, next) ← elaborate scope next body
    return (.func params t, next)
  | .lambda params body => do
    let (ids, next) := freshIds next params.length
    let (t, next) ← elaborate (bindParams scope params ids) next body
    return (.func ids t, next)
  | .withOptarg receiver name value => do
    let (t, next) ← elaborate scope next receiver
    let (v, next) ← elaborate scope next value
    return (t.withOptarg name v, next)

def elaborateArgs (scope : List (String × VarId)) (next : VarId) :
    List Expr → Option (List Term × VarId)
  | [] => some ([], next)
  | e :: rest => do
    let (t, next) ← elaborate scope next e
    let (ts, next) ← elaborateArgs scope next rest
    return (t :: ts, next)

def elaborateOptargs (scope : List (String × VarId)) (next : VarId) :
    List (String × Expr) → Option (List (String × Term) × VarId)
  | [] => some ([], next)
  | (n, e) :: rest => do
    let (t, next) ← elaborate scope next e
    let (ts, next) ← elaborateOptargs scope next rest
    return ((n, t) :: ts, next)

end

/-- The term of a whole expression, numbering parameters from `next`. -/
def toTerm? (e : Expr) (next : VarId) : Option (Term × VarId) :=
  e.elaborate [] next

end Reql.Expr
