import Reql.Double.Basic

/-! The shortest decimal text that reads back as a given double. -/
namespace Reql.Double

/-- The decimal number `coefficient · 10 ^ exponent`. -/
structure Digits where
  coefficient : Nat
  exponent : Int
deriving DecidableEq, Repr

/-- Four times the mantissa of the least point that still rounds to the double. The gap below is
half as wide where the mantissa is the least of its binade. -/
def lowerBound (d : Double) : Nat :=
  if d.mantissa = 1 <<< 52 ∧ d.exponent ≠ -1074 then 4 * d.mantissa - 1 else 4 * d.mantissa - 2

/-- Four times the mantissa of the greatest point that still rounds to the double. -/
def upperBound (d : Double) : Nat :=
  4 * d.mantissa + 2

/-- On the grid of multiples of `10 ^ k`, the neighbour of the double that rounds to it. If both
do, the nearer one, and of two equally near ones the even one. -/
def onGrid? (d : Double) (k : Int) : Option Nat :=
  let a := Nat.pow 10 (-k).toNat <<< (d.exponent - 2).toNat
  let b := Nat.pow 10 k.toNat <<< (2 - d.exponent).toNat
  let value := 4 * d.mantissa * a
  let below := value / b
  let above := below + 1
  let even := d.mantissa % 2 = 0
  let reachesBelow := d.lowerBound * a < below * b ∨ (even ∧ d.lowerBound * a = below * b)
  let reachesAbove := above * b < d.upperBound * a ∨ (even ∧ above * b = d.upperBound * a)
  if reachesBelow then
    if reachesAbove then
      if 2 * value < (2 * below + 1) * b then some below
      else if (2 * below + 1) * b < 2 * value then some above
      else some (below + below % 2)
    else some below
  else if reachesAbove then some above
  else none

/-- The first grid with a hit, going from coarse to fine. -/
def searchGrid (d : Double) : Nat → Int → Digits
  | 0, k => ⟨0, k⟩
  | steps + 1, k =>
    match d.onGrid? k with
    | some c => ⟨c, k⟩
    | none => searchGrid d steps (k - 1)

/-- The fewest digits that read back as this number other than zero. The search starts above its
first digit; seventeen digits always suffice. -/
def shortest (d : Double) : Digits :=
  let bits : Int := d.mantissa.log2 + 1 + d.exponent
  searchGrid d 24 ((if 0 ≤ bits then bits * 302 / 1000 else bits * 301 / 1000) + 1)

/-- Positional notation, always with a fraction, for decimal exponents from -5 to 15; otherwise
scientific notation with a signed exponent. -/
def Digits.text (s : Digits) : String :=
  let ds := Nat.toDigits 10 s.coefficient
  let point : Int := s.exponent + ds.length
  if -4 ≤ point ∧ point ≤ 0 then
    String.ofList ('0' :: '.' :: List.replicate (-point).toNat '0' ++ ds)
  else if 0 < point ∧ point ≤ 16 then
    if 0 ≤ s.exponent then
      String.ofList (ds ++ List.replicate s.exponent.toNat '0' ++ ['.', '0'])
    else
      String.ofList (ds.take point.toNat ++ '.' :: ds.drop point.toNat)
  else
    let fraction := match ds.drop 1 with
      | [] => []
      | rest => '.' :: rest
    let sign := if 0 < point then '+' else '-'
    String.ofList (ds.take 1 ++ fraction ++ 'e' :: sign :: Nat.toDigits 10 (point - 1).natAbs)

def text (d : Double) : String :=
  let magnitude := if d.isZero then "0.0" else d.shortest.text
  if d.negative then "-" ++ magnitude else magnitude

end Reql.Double
