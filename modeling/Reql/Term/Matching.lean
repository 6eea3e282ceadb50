import Reql.Term.Renaming

/-! Comparison of terms up to the numbering of variables. -/
namespace Reql.Term

mutual

/-- Compares two terms under a renaming, which grows with every pair of variables met. A wildcard
on either side agrees with every term. Pairs met before a disagreement stay. -/
def matchesWith : Term → Term → Renaming → Bool × Renaming
  | .anything, _, m => (true, m)
  | _, .anything, m => (true, m)
  | .datum a, .datum b, m => (a.same b, m)
  | .op k as fs, .op l bs gs, m =>
    if k = l ∧ as.length = bs.length then
      match argsMatchWith as bs m with
      | (true, m') =>
        if fs.length = gs.length then optargsMatchWith fs gs m' else (false, m')
      | (false, m') => (false, m')
    else (false, m)
  | .func ps s, .func qs t, m =>
    if ps.length = qs.length then
      match m.bindAll ps qs with
      | (true, m') => matchesWith s t m'
      | (false, m') => (false, m')
    else (false, m)
  | .var a, .var b, m => m.bind a b
  | _, _, m => (false, m)

/-- Compares arguments position by position, up to the first disagreement. -/
def argsMatchWith : List Term → List Term → Renaming → Bool × Renaming
  | a :: as, b :: bs, m =>
    match matchesWith a b m with
    | (true, m') => argsMatchWith as bs m'
    | (false, m') => (false, m')
  | _, _, m => (true, m)

/-- Looks up every optional argument on the left by its name on the right. -/
def optargsMatchWith : List (String × Term) → Fields Term → Renaming → Bool × Renaming
  | [], _, m => (true, m)
  | (n, a) :: as, bs, m =>
    match Fields.get? n bs with
    | none => (false, m)
    | some b =>
      match matchesWith a b m with
      | (true, m') => optargsMatchWith as bs m'
      | (false, m') => (false, m')

end

def matchesTerm (s t : Term) : Bool :=
  (matchesWith s t .empty).1

end Reql.Term
