/-! Finite binary64 numbers with exact rounding. -/
namespace Reql

/-- The normal form of a binary64 magnitude `mantissa · 2 ^ exponent`. -/
def Double.Canonical (mantissa : Nat) (exponent : Int) : Prop :=
  mantissa < 1 <<< 53 ∧ -1074 ≤ exponent ∧ exponent ≤ 971 ∧
    (1 <<< 52 ≤ mantissa ∨ exponent = -1074)

instance (m : Nat) (e : Int) : Decidable (Double.Canonical m e) :=
  inferInstanceAs (Decidable (_ ∧ _))

/-- The finite number `± mantissa · 2 ^ exponent`; zero keeps its sign. -/
structure Double where
  negative : Bool
  mantissa : Nat
  exponent : Int
  canonical : Double.Canonical mantissa exponent
deriving DecidableEq

namespace Double

def zero (negative : Bool) : Double :=
  ⟨negative, 0, -1074, by decide⟩

instance : Inhabited Double := ⟨zero false⟩

/-- The number with these parts, if they are in normal form. -/
def ofParts? (negative : Bool) (mantissa : Nat) (exponent : Int) : Option Double :=
  if h : Canonical mantissa exponent then some ⟨negative, mantissa, exponent, h⟩ else none

/-- The quotient rounded to the nearest integer, a half going to the even one. -/
def divRoundEven (num den : Nat) : Nat :=
  let q := num / den
  let r := num % den
  if 2 * r < den then q
  else if den < 2 * r then q + 1
  else q + q % 2

/-- Numerator and denominator of `num / (den · 2 ^ exponent)`. -/
def descale (num den : Nat) (exponent : Int) : Nat × Nat :=
  (num <<< (-exponent).toNat, den <<< exponent.toNat)

/-- The exponent at which a positive ratio has 53 binary digits before the point, or the least one. -/
def quantum (num den : Nat) : Int :=
  let e : Int := (num.log2 : Int) - den.log2 - 53
  let scaled := descale num den e
  max (if 1 <<< 53 ≤ scaled.1 / scaled.2 then e + 1 else e) (-1074)

/-- The double nearest to a ratio, ties to the even mantissa; none if that is beyond the largest. -/
def ofRatio? (negative : Bool) (num den : Nat) : Option Double :=
  if num = 0 then some (zero negative)
  else
    let e := quantum num den
    let scaled := descale num den e
    let m := divRoundEven scaled.1 scaled.2
    if m = 1 <<< 53 then ofParts? negative (1 <<< 52) (e + 1) else ofParts? negative m e

def ofNat? (n : Nat) : Option Double :=
  ofRatio? false n 1

def isZero (d : Double) : Bool :=
  d.mantissa == 0

/-- The magnitude is `numerator / denominator`. -/
def numerator (d : Double) : Nat :=
  d.mantissa <<< d.exponent.toNat

/-- The magnitude is `numerator / denominator`. -/
def denominator (d : Double) : Nat :=
  1 <<< (-d.exponent).toNat

def neg (d : Double) : Double :=
  { d with negative := !d.negative }

/-- The rounded product. -/
def mul? (a b : Double) : Option Double :=
  ofRatio? (a.negative != b.negative) (a.numerator * b.numerator) (a.denominator * b.denominator)

def div? (a b : Double) : Option Double :=
  ofRatio? (a.negative != b.negative) (a.numerator * b.denominator) (a.denominator * b.numerator)

/-- Equality of values: the two zeros are equal. -/
def sameValue (a b : Double) : Bool :=
  a == b || (a.isZero && b.isZero)

@[simp] theorem sameValue_self (a : Double) : sameValue a a = true := by
  simp [sameValue]

theorem sameValue_comm (a b : Double) : sameValue a b = sameValue b a := by
  simp only [sameValue, Bool.and_comm, BEq.comm (a := a)]

theorem sameValue_trans {a b c : Double} (hab : sameValue a b = true)
    (hbc : sameValue b c = true) : sameValue a c = true := by
  simp only [sameValue, Bool.or_eq_true, beq_iff_eq, Bool.and_eq_true] at hab hbc ⊢
  rcases hab with rfl | ⟨ha, hb⟩
  · exact hbc
  · rcases hbc with rfl | ⟨_, hc⟩
    · exact Or.inr ⟨ha, hb⟩
    · exact Or.inr ⟨ha, hc⟩

end Double
end Reql
