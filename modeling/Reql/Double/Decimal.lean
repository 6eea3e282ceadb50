import Reql.Double.Basic

/-! Decimal numbers read as doubles. -/
namespace Reql.Double

/-- The natural number that decimal digits write, the highest digit first. -/
def natOfDigits (digits : List Nat) : Nat :=
  digits.foldl (fun n d => 10 * n + d) 0

/-- The double nearest to `coefficient · 10 ^ exponent`; none if that is beyond the largest.
Far outside the range of doubles the power of ten is not computed. -/
def ofDecimal? (negative : Bool) (coefficient : Nat) (exponent : Int) : Option Double :=
  if coefficient = 0 then some (zero negative)
  else
    let magnitude : Int := exponent + coefficient.log2 / 3
    if exponent > 400 then none
    else if magnitude < -400 then some (zero negative)
    else ofRatio? negative (coefficient * Nat.pow 10 exponent.toNat) (Nat.pow 10 (-exponent).toNat)

def tenPow? (k : Nat) : Option Double :=
  ofNat? (Nat.pow 10 k)

/-- `significand · 10 ^ exponent` in two rounded steps: the significand becomes a double, which is
then multiplied or divided by a power of ten. Below the range of the powers it is divided twice.
None if the value is beyond the largest double. -/
def ofScaled? (significand : Nat) (exponent : Int) : Option Double := do
  let s ← ofNat? significand
  if 308 < exponent then
    if significand = 0 then some s else none
  else if 0 ≤ exponent then
    s.mul? (← tenPow? exponent.toNat)
  else if -308 ≤ exponent then
    s.div? (← tenPow? (-exponent).toNat)
  else if -616 ≤ exponent then
    let t ← s.div? (← tenPow? 308)
    t.div? (← tenPow? (-exponent - 308).toNat)
  else some (zero false)

end Reql.Double
