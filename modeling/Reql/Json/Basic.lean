import Reql.Fields
import Reql.Double.Basic

/-! JSON documents. -/
namespace Reql

/-- The integers that fit 64 bits, with or without a sign. -/
abbrev Json.Integer := { n : Int // -0x8000000000000000 ≤ n ∧ n < 0x10000000000000000 }

/-- A JSON document. Integers and doubles are different values, also where they are equal numbers.
The fields of an object stand in ascending order of their names. -/
inductive Json where
  | null
  | bool (value : Bool)
  | int (value : Json.Integer)
  | double (value : Double)
  | str (value : String)
  | arr (items : List Json)
  | obj (fields : List (String × Json))
deriving Inhabited

namespace Json

def ofUInt64 (n : UInt64) : Json :=
  .int ⟨n.toNat, by have := n.toNat_lt; omega⟩

def ofInt64 (n : Int64) : Json :=
  .int ⟨n.toInt, by have := n.toInt_lt; have := n.le_toInt; omega⟩

/-- The document of a double, where none stands for a value that is not finite. -/
def ofDouble? : Option Double → Json
  | some d => .double d
  | none => .null

/-- The document of an integer; one that does not fit a word is the nearest double. -/
def ofInt (n : Int) : Json :=
  if h : -0x8000000000000000 ≤ n ∧ n < 0x10000000000000000 then .int ⟨n, h⟩
  else ofDouble? (Double.ofRatio? (n < 0) n.natAbs 1)

/-- The document of the fields in any order; of several under one name the last counts. -/
def ofFields (fields : List (String × Json)) : Json :=
  .obj (Fields.ofList fields)

def toUInt64? : Json → Option UInt64
  | .int n => if 0 ≤ n.val then some (UInt64.ofNat n.val.toNat) else none
  | _ => none

mutual

/-- Equality up to a given comparison of doubles. -/
def equalBy (eq : Double → Double → Bool) : Json → Json → Bool
  | .null, .null => true
  | .bool a, .bool b => a == b
  | .int a, .int b => a == b
  | .double a, .double b => eq a b
  | .str a, .str b => a == b
  | .arr as, .arr bs => equalItemsBy eq as bs
  | .obj fs, .obj gs => equalFieldsBy eq fs gs
  | _, _ => false

def equalItemsBy (eq : Double → Double → Bool) : List Json → List Json → Bool
  | [], [] => true
  | a :: as, b :: bs => equalBy eq a b && equalItemsBy eq as bs
  | _, _ => false

def equalFieldsBy (eq : Double → Double → Bool) :
    List (String × Json) → List (String × Json) → Bool
  | [], [] => true
  | (n, a) :: as, (m, b) :: bs => n == m && equalBy eq a b && equalFieldsBy eq as bs
  | _, _ => false

end

/-- Equality of values: doubles are compared as numbers, so the two zeros are equal. -/
def same (a b : Json) : Bool :=
  equalBy Double.sameValue a b

mutual

theorem equalBy_iff : ∀ a b : Json, equalBy (· == ·) a b = true ↔ a = b
  | .arr as, b => by cases b <;> simp [equalBy, equalItemsBy_iff as]
  | .obj fs, b => by cases b <;> simp [equalBy, equalFieldsBy_iff fs]
  | .null, b | .bool _, b | .int _, b | .double _, b | .str _, b => by
    cases b <;> simp [equalBy, Subtype.ext_iff]

theorem equalItemsBy_iff : ∀ as bs : List Json, equalItemsBy (· == ·) as bs = true ↔ as = bs
  | [], bs => by cases bs <;> simp [equalItemsBy]
  | a :: as, bs => by
    cases bs with
    | nil => simp [equalItemsBy]
    | cons b bs => simp [equalItemsBy, equalBy_iff a, equalItemsBy_iff as]

theorem equalFieldsBy_iff :
    ∀ fs gs : List (String × Json), equalFieldsBy (· == ·) fs gs = true ↔ fs = gs
  | [], gs => by cases gs <;> simp [equalFieldsBy]
  | (n, a) :: fs, gs => by
    cases gs with
    | nil => simp [equalFieldsBy]
    | cons g gs =>
      obtain ⟨m, b⟩ := g
      simp [equalFieldsBy, equalBy_iff a, equalFieldsBy_iff fs, and_assoc]

end

instance : DecidableEq Json := fun a b => decidable_of_iff _ (equalBy_iff a b)

mutual

/-- How many arrays and objects are nested in each other. -/
def depth : Json → Nat
  | .arr items => depthItems items + 1
  | .obj fields => depthFields fields + 1
  | _ => 0

def depthItems : List Json → Nat
  | [] => 0
  | j :: rest => max (depth j) (depthItems rest)

def depthFields : List (String × Json) → Nat
  | [] => 0
  | (_, j) :: rest => max (depth j) (depthFields rest)

end

mutual

/-- Every object in the document has its fields in order. -/
def Canonical : Json → Prop
  | .arr items => CanonicalItems items
  | .obj fields => Fields.Sorted fields ∧ CanonicalFields fields
  | _ => True

def CanonicalItems : List Json → Prop
  | [] => True
  | j :: rest => Canonical j ∧ CanonicalItems rest

def CanonicalFields : List (String × Json) → Prop
  | [] => True
  | (_, j) :: rest => Canonical j ∧ CanonicalFields rest

end

theorem canonicalItems_iff {items : List Json} :
    CanonicalItems items ↔ ∀ j ∈ items, Canonical j := by
  induction items with
  | nil => simp [CanonicalItems]
  | cons j rest ih => simp [CanonicalItems, ih]

theorem canonicalFields_iff {fields : List (String × Json)} :
    CanonicalFields fields ↔ ∀ p ∈ fields, Canonical p.2 := by
  induction fields with
  | nil => simp [CanonicalFields]
  | cons p rest ih => simp [CanonicalFields, ih]

end Json
end Reql
