import Reql.Json.Printer
import Reql.Term.Basic

/-! Readable terms, as in `r.table("users").get(5)`. -/
namespace Reql.Term

def varName (id : VarId) : String :=
  "var_" ++ toString id.toInt

/-- Whether an operation on this first argument is written as a method of it. -/
def isReceiver : Term → Bool
  | .op _ _ _ | .var _ | .anything => true
  | .datum _ | .func _ _ => false

mutual

/-- The readable form. An operation is a method of its first argument, or of `r` if that is a
literal, a function or missing. -/
def render : Term → String
  | .datum j => j.render
  | .anything => "r.mockAnything()"
  | .var id => varName id
  | .func params body =>
    "func(" ++ ", ".intercalate (params.map varName) ++ ") \x7b " ++ render body ++ " \x7d"
  | .op k args optargs =>
    let parts := renderArgs args ++ renderOptargs optargs
    if (args.head?.map isReceiver).getD false then
      parts.headD "" ++ "." ++ k.name ++ "(" ++ ", ".intercalate parts.tail ++ ")"
    else "r." ++ k.name ++ "(" ++ ", ".intercalate parts ++ ")"

def renderArgs : List Term → List String
  | [] => []
  | t :: rest => render t :: renderArgs rest

/-- Optional arguments as `name=value`. -/
def renderOptargs : List (String × Term) → List String
  | [] => []
  | (n, t) :: rest => (n ++ "=" ++ render t) :: renderOptargs rest

end

end Reql.Term
