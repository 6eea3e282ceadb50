import Reql.Json.Basic
import Reql.Term.Kind

/-! Query terms. -/
namespace Reql

/-- The number of a function parameter. -/
abbrev VarId := Int64

/-- A query term. Optional arguments stand in ascending order of their names. `anything` is a
wildcard for comparisons. -/
inductive Term where
  | datum (value : Json)
  | op (kind : Term.Kind) (args : List Term) (optargs : List (String × Term))
  | func (params : List VarId) (body : Term)
  | var (id : VarId)
  | anything
deriving Inhabited

namespace Term

def ofString (s : String) : Term :=
  .datum (.str s)

def ofBool (b : Bool) : Term :=
  .datum (.bool b)

def ofInt64 (n : Int64) : Term :=
  .datum (.ofInt64 n)

def ofUInt64 (n : UInt64) : Term :=
  .datum (.ofUInt64 n)

/-- The literal double, where none stands for a value that is not finite. -/
def ofDouble? (d : Option Double) : Term :=
  .datum (.ofDouble? d)

def db (name : String) : Term :=
  .op .db [ofString name] []

/-- The kind of a term; literals and the wildcard are data. -/
def kind : Term → Kind
  | .datum _ | .anything => .datum
  | .op k _ _ => k
  | .func _ _ => .func
  | .var _ => .var

/-- An operation with one more optional argument; any other term is left alone. -/
def withOptarg (t : Term) (name : String) (value : Term) : Term :=
  match t with
  | .op k args optargs => .op k args (Fields.insert name value optargs)
  | t => t

mutual

/-- Equality up to a given comparison of literals. -/
def equalBy (eq : Json → Json → Bool) : Term → Term → Bool
  | .datum a, .datum b => eq a b
  | .op k as fs, .op l bs gs => k == l && equalArgsBy eq as bs && equalOptargsBy eq fs gs
  | .func ps s, .func qs t => ps == qs && equalBy eq s t
  | .var a, .var b => a == b
  | .anything, .anything => true
  | _, _ => false

def equalArgsBy (eq : Json → Json → Bool) : List Term → List Term → Bool
  | [], [] => true
  | a :: as, b :: bs => equalBy eq a b && equalArgsBy eq as bs
  | _, _ => false

def equalOptargsBy (eq : Json → Json → Bool) :
    List (String × Term) → List (String × Term) → Bool
  | [], [] => true
  | (n, a) :: as, (m, b) :: bs => n == m && equalBy eq a b && equalOptargsBy eq as bs
  | _, _ => false

end

/-- Equality with the same variable numbers, where literals are compared as values. -/
def same (s t : Term) : Bool :=
  equalBy Json.same s t

mutual

theorem equalBy_iff : ∀ s t : Term, equalBy (· == ·) s t = true ↔ s = t
  | .op k as fs, t => by
    cases t <;> simp [equalBy, equalArgsBy_iff as, equalOptargsBy_iff fs, and_assoc]
  | .func ps s, t => by cases t <;> simp [equalBy, equalBy_iff s]
  | .datum _, t | .var _, t | .anything, t => by cases t <;> simp [equalBy]

theorem equalArgsBy_iff : ∀ as bs : List Term, equalArgsBy (· == ·) as bs = true ↔ as = bs
  | [], bs => by cases bs <;> simp [equalArgsBy]
  | a :: as, bs => by
    cases bs with
    | nil => simp [equalArgsBy]
    | cons b bs => simp [equalArgsBy, equalBy_iff a, equalArgsBy_iff as]

theorem equalOptargsBy_iff :
    ∀ fs gs : List (String × Term), equalOptargsBy (· == ·) fs gs = true ↔ fs = gs
  | [], gs => by cases gs <;> simp [equalOptargsBy]
  | (n, a) :: fs, gs => by
    cases gs with
    | nil => simp [equalOptargsBy]
    | cons g gs =>
      obtain ⟨m, b⟩ := g
      simp [equalOptargsBy, equalBy_iff a, equalOptargsBy_iff fs, and_assoc]

end

instance : DecidableEq Term := fun s t => decidable_of_iff _ (equalBy_iff s t)

mutual

/-- All literals are canonical and all optional arguments in order. -/
def Canonical : Term → Prop
  | .datum j => j.Canonical
  | .op _ args optargs =>
    CanonicalArgs args ∧ Fields.Sorted optargs ∧ CanonicalOptargs optargs
  | .func _ body => Canonical body
  | .var _ | .anything => True

def CanonicalArgs : List Term → Prop
  | [] => True
  | t :: rest => Canonical t ∧ CanonicalArgs rest

def CanonicalOptargs : List (String × Term) → Prop
  | [] => True
  | (_, t) :: rest => Canonical t ∧ CanonicalOptargs rest

end

end Term
end Reql
