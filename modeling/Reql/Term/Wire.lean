import Reql.Term.Basic

/-! The wire form of terms: JSON arrays of a kind number, arguments and optional arguments. -/
namespace Reql

namespace Json

def ofKind (k : Term.Kind) : Json :=
  .int ⟨k.code, by have := k.code_lt; omega⟩

mutual

/-- A literal on the wire: every array in it becomes an explicit array constructor. -/
def literal : Json → Json
  | .arr items => .arr [ofKind .makeArray, .arr (literalItems items)]
  | .obj fields => .obj (literalFields fields)
  | j => j

def literalItems : List Json → List Json
  | [] => []
  | j :: rest => literal j :: literalItems rest

def literalFields : List (String × Json) → List (String × Json)
  | [] => []
  | (n, j) :: rest => (n, literal j) :: literalFields rest

end

end Json

namespace Term

mutual

/-- The wire form. Optional arguments are left out if there are none. -/
def build : Term → Json
  | .datum j => j.literal
  | .op k args [] => .arr [.ofKind k, .arr (buildArgs args)]
  | .op k args optargs => .arr [.ofKind k, .arr (buildArgs args), .obj (buildOptargs optargs)]
  | .func params body =>
    .arr [.ofKind .func,
      .arr [.arr [.ofKind .makeArray, .arr (params.map .ofInt64)], build body]]
  | .var id => .arr [.ofKind .var, .arr [.ofInt64 id]]
  | .anything => .null

def buildArgs : List Term → List Json
  | [] => []
  | t :: rest => build t :: buildArgs rest

def buildOptargs : List (String × Term) → List (String × Json)
  | [] => []
  | (n, t) :: rest => (n, build t) :: buildOptargs rest

end

end Term
end Reql
