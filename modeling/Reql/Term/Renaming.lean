import Reql.Term.Basic

/-! One-to-one renamings of variables, recorded pair by pair. -/
namespace Reql

/-- A one-to-one renaming of variables, as a table for each direction. -/
structure Renaming where
  forward : List (VarId × VarId)
  backward : List (VarId × VarId)
deriving DecidableEq, Repr

namespace Renaming

/-- No variable is renamed. -/
def empty : Renaming := ⟨[], []⟩

/-- The right partner of a left variable. -/
def right? (m : Renaming) (left : VarId) : Option VarId :=
  m.forward.lookup left

/-- The left partner of a right variable. -/
def left? (m : Renaming) (right : VarId) : Option VarId :=
  m.backward.lookup right

def size (m : Renaming) : Nat :=
  m.forward.length

def isEmpty (m : Renaming) : Bool :=
  m.forward.isEmpty

/-- Records a pair if both variables are free. Says whether the two are partners afterwards. -/
def bind (m : Renaming) (left right : VarId) : Bool × Renaming :=
  match m.right? left, m.left? right with
  | none, none => (true, ⟨(left, right) :: m.forward, (right, left) :: m.backward⟩)
  | some r, some l => (r == right && l == left, m)
  | _, _ => (false, m)

/-- Binds the variables of two lists in turn, up to the first pair that cannot be bound. -/
def bindAll : Renaming → List VarId → List VarId → Bool × Renaming
  | m, l :: ls, r :: rs =>
    match m.bind l r with
    | (true, m') => bindAll m' ls rs
    | (false, m') => (false, m')
  | m, _, _ => (true, m)

end Renaming
end Reql
