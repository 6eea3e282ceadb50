import Reql.Expr.Elaboration

/-! What the variables of a term and the named arguments of an expression refer to, without numbers
and without names. -/
namespace Reql

/-- A term without numbers. A variable is known by how many parameters stand between its use and
its binder, counted from the inside out and in a function from the last parameter; none if it is
free. -/
inductive Nameless where
  | datum (value : Json)
  | op (kind : Term.Kind) (args : List Nameless) (optargs : List (String × Nameless))
  | func (arity : Nat) (body : Nameless)
  | var (binder : Option Nat)
  | anything

/-- An operation with one more optional argument; anything else is left alone. -/
def Nameless.withOptarg (t : Nameless) (name : String) (value : Nameless) : Nameless :=
  match t with
  | .op k args optargs => .op k args (Fields.insert name value optargs)
  | t => t

namespace Term

mutual

/-- What each variable of a term refers to under lexical scoping. The scope lists the variables
around the term from the innermost. -/
def nameless (scope : List VarId) : Term → Nameless
  | .datum j => .datum j
  | .op k args optargs => .op k (argsNameless scope args) (optargsNameless scope optargs)
  | .func params body => .func params.length (nameless (params.reverse ++ scope) body)
  | .var id => .var (scope.idxOf? id)
  | .anything => .anything

def argsNameless (scope : List VarId) : List Term → List Nameless
  | [] => []
  | t :: rest => nameless scope t :: argsNameless scope rest

def optargsNameless (scope : List VarId) : List (String × Term) → List (String × Nameless)
  | [] => []
  | (n, t) :: rest => (n, nameless scope t) :: optargsNameless scope rest

end

/-- The terms that are made in one piece: literals, the wildcard and databases. -/
inductive Ready : Term → Prop where
  | datum {j : Json} (h : j.Canonical) : Ready (.datum j)
  | anything : Ready .anything
  | db (name : String) : Ready (.db name)

end Term

namespace Expr

mutual

/-- Where each named argument stands under lexical scoping of the names: an inner name hides an
outer one, and in a function a later one an earlier one. The scope lists the names around the
expression from the innermost. Nothing is said of numbers written by hand. -/
def nameless (scope : List String) : Expr → Nameless
  | .term t => t.nameless []
  | .arg name => .var (scope.idxOf? name)
  | .op k args optargs =>
    .op k (argsNameless scope args) (Fields.ofList (optargsNameless scope optargs))
  | .func params body => .func params.length (nameless scope body)
  | .lambda params body => .func params.length (nameless (params.reverse ++ scope) body)
  | .withOptarg receiver name value =>
    (nameless scope receiver).withOptarg name (nameless scope value)

def argsNameless (scope : List String) : List Expr → List Nameless
  | [] => []
  | e :: rest => nameless scope e :: argsNameless scope rest

def optargsNameless (scope : List String) : List (String × Expr) → List (String × Nameless)
  | [] => []
  | (n, e) :: rest => (n, nameless scope e) :: optargsNameless scope rest

end

mutual

/-- The expression holds no number written by hand, and every argument is used inside of its
function. The scope lists the names around the expression. -/
def Written (scope : List String) : Expr → Prop
  | .term t => t.Ready
  | .arg name => name ∈ scope
  | .op _ args optargs => ArgsWritten scope args ∧ OptargsWritten scope optargs
  | .func _ _ => False
  | .lambda params body => Written (params.reverse ++ scope) body
  | .withOptarg receiver _ value => Written scope receiver ∧ Written scope value

def ArgsWritten (scope : List String) : List Expr → Prop
  | [] => True
  | e :: rest => Written scope e ∧ ArgsWritten scope rest

def OptargsWritten (scope : List String) : List (String × Expr) → Prop
  | [] => True
  | (_, e) :: rest => Written scope e ∧ OptargsWritten scope rest

end

/-- A property that passes from the parts of an expression to the expression. -/
structure Inductive (P : Expr → Prop) : Prop where
  term : ∀ t, P (.term t)
  arg : ∀ name, P (.arg name)
  op : ∀ k args optargs, (∀ a ∈ args, P a) → (∀ f ∈ optargs, P f.2) → P (.op k args optargs)
  func : ∀ params body, P body → P (.func params body)
  lambda : ∀ params body, P body → P (.lambda params body)
  withOptarg : ∀ receiver name value, P receiver → P value → P (.withOptarg receiver name value)

namespace Inductive

variable {P : Expr → Prop}

mutual

theorem all (h : Inductive P) : ∀ e, P e
  | .term t => h.term t
  | .arg name => h.arg name
  | .op k args optargs => h.op k args optargs (allArgs h args) (allOptargs h optargs)
  | .func params body => h.func params body (all h body)
  | .lambda params body => h.lambda params body (all h body)
  | .withOptarg receiver name value =>
    h.withOptarg receiver name value (all h receiver) (all h value)

theorem allArgs (h : Inductive P) : ∀ args : List Expr, ∀ a ∈ args, P a
  | [] => fun _ ha => nomatch ha
  | e :: args => List.forall_mem_cons.mpr ⟨all h e, allArgs h args⟩

theorem allOptargs (h : Inductive P) : ∀ optargs : List (String × Expr), ∀ f ∈ optargs, P f.2
  | [] => fun _ hf => nomatch hf
  | (_, e) :: optargs => List.forall_mem_cons.mpr ⟨all h e, allOptargs h optargs⟩

end

end Inductive

/-- Induction over expressions: an operation has a property if all its arguments have it. -/
@[elab_as_elim]
theorem induction {P : Expr → Prop} (term : ∀ t, P (.term t)) (arg : ∀ name, P (.arg name))
    (op : ∀ k args optargs, (∀ a ∈ args, P a) → (∀ f ∈ optargs, P f.2) → P (.op k args optargs))
    (func : ∀ params body, P body → P (.func params body))
    (lambda : ∀ params body, P body → P (.lambda params body))
    (withOptarg : ∀ receiver name value, P receiver → P value →
      P (.withOptarg receiver name value)) (e : Expr) : P e :=
  Inductive.all ⟨term, arg, op, func, lambda, withOptarg⟩ e

end Expr
end Reql
