import Reql.Double.Decimal
import Reql.Json.Basic
import Reql.Json.Tree

/-! Documents read from JSON text. -/
namespace Reql.Json

/-- Appends decimal digits to a significand while it stays a 64-bit word, and counts the digits
left over. -/
def absorb (significand : Nat) : List Nat → Nat × Nat
  | [] => (significand, 0)
  | d :: rest =>
    if 10 * significand + d < UInt64.size then absorb (10 * significand + d) rest
    else (significand, rest.length + 1)

/-- The signed value of an exponent; a missing one is zero. -/
def Numeral.exponentValue (n : Numeral) : Int :=
  match n.exponent with
  | none => 0
  | some (negative, digits) =>
    let e : Int := Double.natOfDigits digits
    if negative then -e else e

/-- The double that a number with a fraction, an exponent or too many digits stands for. Of the
digits only those count that fit a 64-bit significand. -/
def Numeral.toDouble? (n : Numeral) : Option Double :=
  let whole := absorb 0 n.whole
  let all := absorb whole.1 n.fraction
  let exponent : Int := whole.2 + n.exponentValue - (n.fraction.length - all.2 : Nat)
  (Double.ofScaled? all.1 exponent).map fun d => if n.negative then d.neg else d

/-- The document of a number: an integer if it is written as one and fits a word, else a double.
Minus zero is a double. -/
def ofNumeral (n : Numeral) : Except Fault Json :=
  let whole := absorb 0 n.whole
  let value : Int := if n.negative then -whole.1 else whole.1
  let minusZero := n.negative && whole.1 == 0
  if h : (n.fraction = [] ∧ n.exponent = none ∧ whole.2 = 0 ∧ minusZero = false) ∧
      (-0x8000000000000000 ≤ value ∧ value < 0x10000000000000000) then
    .ok (.int ⟨value, h.2⟩)
  else
    match n.toDouble? with
    | some d => .ok (.double d)
    | none => .error .numberOutOfRange

/-- Whether a 16-bit unit is the first half of a surrogate pair. -/
def isHighSurrogate (u : Nat) : Bool :=
  0xD800 ≤ u && u < 0xDC00

/-- Whether a 16-bit unit is the second half of a surrogate pair. -/
def isLowSurrogate (u : Nat) : Bool :=
  0xDC00 ≤ u && u < 0xE000

def bytesOfCode (code : Nat) : Bytes :=
  Bytes.ofString (String.singleton (Char.ofNat code))

/-- The bytes that the pieces of a text spell; two escapes may form a surrogate pair. -/
def bytesOfPieces : List Piece → Except Fault Bytes
  | [] => .ok []
  | .byte b :: rest => do return b :: (← bytesOfPieces rest)
  | .unit u :: .unit v :: rest =>
    if isHighSurrogate u then
      if isLowSurrogate v then do
        return bytesOfCode (0x10000 + (u - 0xD800) * 0x400 + (v - 0xDC00)) ++ (← bytesOfPieces rest)
      else .error .loneSurrogate
    else if isLowSurrogate u then .error .loneSurrogate
    else do return bytesOfCode u ++ (← bytesOfPieces (.unit v :: rest))
  | .unit u :: rest =>
    if isHighSurrogate u || isLowSurrogate u then .error .loneSurrogate
    else do return bytesOfCode u ++ (← bytesOfPieces rest)

def stringOfPieces (pieces : List Piece) : Except Fault String := do
  match Bytes.toString? (← bytesOfPieces pieces) with
  | some s => .ok s
  | none => .error .notUnicode

mutual

/-- The document of a tree, with at most `levels` arrays and objects in each other. -/
def ofTree (levels : Nat) : Tree → Except Fault Json
  | .null => .ok .null
  | .bool b => .ok (.bool b)
  | .number n => ofNumeral n
  | .text pieces => do return .str (← stringOfPieces pieces)
  | .list items =>
    match levels with
    | 0 => .error .tooDeep
    | inner + 1 => do return .arr (← ofTrees inner items)
  | .record fields =>
    match levels with
    | 0 => .error .tooDeep
    | inner + 1 => do return ofFields (← ofFieldTrees inner fields)

def ofTrees (levels : Nat) : List Tree → Except Fault (List Json)
  | [] => .ok []
  | t :: rest => do return (← ofTree levels t) :: (← ofTrees levels rest)

def ofFieldTrees (levels : Nat) :
    List (List Piece × Tree) → Except Fault (List (String × Json))
  | [] => .ok []
  | (name, t) :: rest => do
    return (← stringOfPieces name, ← ofTree levels t) :: (← ofFieldTrees levels rest)

end

/-- How many arrays and objects may be nested in each other. -/
def maxLevels : Nat := 127

/-- A fault and where it was found: a line and a column, both counted from one. -/
structure ReadError where
  fault : Fault
  line : Nat
  column : Nat
deriving DecidableEq, Repr

/-- The wording of a read error ends in its position. -/
def ReadError.message (e : ReadError) : String :=
  e.fault.message ++ " at line " ++ toString e.line ++ " column " ++ toString e.column

/-- A fault at the given distance from the end of a text. -/
def ReadError.atRest (fault : Fault) (text : Bytes) (rest : Nat) : ReadError :=
  let before := text.take (text.length - rest)
  let lastLine := (before.reverse.takeWhile (· ≠ 0x0A)).length
  ⟨fault, before.count 0x0A + 1, lastLine + 1⟩

def readTree (text : Bytes) : Except ReadError Tree :=
  match lexemes text with
  | .error (f, rest) => .error (.atRest f text rest)
  | .ok ts =>
    match Tree.ofLexemes ts with
    | .ok t => .ok t
    | .error f => .error (.atRest f text 0)

/-- The document that a text spells. Faults of numbers, strings and depth are found once the whole
text has been scanned, and are reported at its end. -/
def read (text : Bytes) : Except ReadError Json :=
  match readTree text with
  | .error e => .error e
  | .ok t =>
    match ofTree maxLevels t with
    | .ok j => .ok j
    | .error f => .error (.atRest f text 0)

end Reql.Json
