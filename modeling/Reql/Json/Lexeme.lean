import Reql.Bytes

/-! Lexemes of JSON text, scanned one byte at a time. -/
namespace Reql.Json

/-- Why a text is not the JSON asked for. -/
inductive Fault where
  | unexpectedByte
  | controlCharacter
  | badEscape
  | badNumber
  | unfinished
  | misplaced
  | tooDeep
  | numberOutOfRange
  | loneSurrogate
  | notUnicode
  | wrongType
  | missingField
  | repeatedField
deriving DecidableEq, Repr

def Fault.message : Fault → String
  | .unexpectedByte => "expected value"
  | .controlCharacter => "control character found while reading a string"
  | .badEscape => "invalid escape"
  | .badNumber => "invalid number"
  | .unfinished => "end of text while reading a value"
  | .misplaced => "unexpected symbol"
  | .tooDeep => "recursion limit exceeded"
  | .numberOutOfRange => "number out of range"
  | .loneSurrogate => "lone surrogate in hex escape"
  | .notUnicode => "invalid unicode code point"
  | .wrongType => "invalid type"
  | .missingField => "missing field"
  | .repeatedField => "duplicate field"

/-- A part of a quoted text: a byte of it, or the 16-bit unit of a hexadecimal escape. -/
inductive Piece where
  | byte (value : UInt8)
  | unit (value : Nat)
deriving DecidableEq, Repr

/-- A number as written: decimal digits, the highest first. A missing fraction has no digits. -/
structure Numeral where
  negative : Bool
  whole : List Nat
  fraction : List Nat
  exponent : Option (Bool × List Nat)
deriving DecidableEq, Repr

/-- A lexeme of JSON text. The sign of an exponent is true for minus. -/
inductive Lexeme where
  | beginArray
  | endArray
  | beginObject
  | endObject
  | comma
  | colon
  | null
  | bool (value : Bool)
  | number (value : Numeral)
  | text (pieces : List Piece)
deriving DecidableEq, Repr

inductive NumberStage where
  | minus
  | zero
  | whole
  | point
  | fraction
  | exponentMark
  | exponentSign
  | exponent
deriving DecidableEq, Repr

/-- Whether a number may end here. -/
def NumberStage.complete : NumberStage → Bool
  | .zero | .whole | .fraction | .exponent => true
  | .minus | .point | .exponentMark | .exponentSign => false

def digit? (b : UInt8) : Option Nat :=
  if 0x30 ≤ b ∧ b ≤ 0x39 then some (b.toNat - 0x30) else none

def hexDigit? (b : UInt8) : Option Nat :=
  if 0x30 ≤ b ∧ b ≤ 0x39 then some (b.toNat - 0x30)
  else if 0x61 ≤ b ∧ b ≤ 0x66 then some (b.toNat - 0x61 + 10)
  else if 0x41 ≤ b ∧ b ≤ 0x46 then some (b.toNat - 0x41 + 10)
  else none

def shortEscape? (b : UInt8) : Option UInt8 :=
  if b = 0x22 ∨ b = 0x5C ∨ b = 0x2F then some b
  else if b = 0x62 then some 0x08
  else if b = 0x66 then some 0x0C
  else if b = 0x6E then some 0x0A
  else if b = 0x72 then some 0x0D
  else if b = 0x74 then some 0x09
  else none

/-- What is being read. Digits and pieces are listed with the latest first. -/
inductive Mode where
  | between
  | word (rest : Bytes) (lexeme : Lexeme)
  | text (pieces : List Piece)
  | escape (pieces : List Piece)
  | unit (pieces : List Piece) (missing : Nat) (value : Nat)
  | number (stage : NumberStage) (numeral : Numeral)
deriving DecidableEq, Repr

/-- The lexemes read so far, the latest first, and what is being read. -/
structure Scanner where
  lexemes : List Lexeme
  mode : Mode
deriving DecidableEq, Repr

namespace Scanner

def start : Scanner := ⟨[], .between⟩

/-- Between lexemes, a lexeme that is complete. -/
def emit (lexemes : List Lexeme) (lexeme : Lexeme) : Scanner :=
  ⟨lexeme :: lexemes, .between⟩

/-- The lexeme of a number, with its digits in written order. -/
def numberLexeme (n : Numeral) : Lexeme :=
  .number {
    negative := n.negative
    whole := n.whole.reverse
    fraction := n.fraction.reverse
    exponent := n.exponent.map fun e => (e.1, e.2.reverse) }

/-- The first byte of a lexeme, or a space. -/
def openLexeme (lexemes : List Lexeme) (b : UInt8) : Except Fault Scanner :=
  if b = 0x20 ∨ b = 0x09 ∨ b = 0x0A ∨ b = 0x0D then .ok ⟨lexemes, .between⟩
  else if b = 0x5B then .ok (emit lexemes .beginArray)
  else if b = 0x5D then .ok (emit lexemes .endArray)
  else if b = 0x7B then .ok (emit lexemes .beginObject)
  else if b = 0x7D then .ok (emit lexemes .endObject)
  else if b = 0x2C then .ok (emit lexemes .comma)
  else if b = 0x3A then .ok (emit lexemes .colon)
  else if b = 0x22 then .ok ⟨lexemes, .text []⟩
  else if b = 0x6E then .ok ⟨lexemes, .word [0x75, 0x6C, 0x6C] .null⟩
  else if b = 0x74 then .ok ⟨lexemes, .word [0x72, 0x75, 0x65] (.bool true)⟩
  else if b = 0x66 then .ok ⟨lexemes, .word [0x61, 0x6C, 0x73, 0x65] (.bool false)⟩
  else if b = 0x2D then .ok ⟨lexemes, .number .minus ⟨true, [], [], none⟩⟩
  else match digit? b with
    | some 0 => .ok ⟨lexemes, .number .zero ⟨false, [0], [], none⟩⟩
    | some d => .ok ⟨lexemes, .number .whole ⟨false, [d], [], none⟩⟩
    | none => .error .unexpectedByte

/-- The number with one more byte, if the byte belongs to it. -/
def extendNumber? (stage : NumberStage) (n : Numeral) (b : UInt8) : Option Mode :=
  match stage, digit? b with
  | .minus, some 0 => some (.number .zero { n with whole := [0] })
  | .minus, some d | .whole, some d => some (.number .whole { n with whole := d :: n.whole })
  | .point, some d | .fraction, some d =>
    some (.number .fraction { n with fraction := d :: n.fraction })
  | .exponentMark, some d => some (.number .exponent { n with exponent := some (false, [d]) })
  | .exponentSign, some d | .exponent, some d =>
    some (.number .exponent { n with exponent := n.exponent.map fun e => (e.1, d :: e.2) })
  | .exponentMark, none =>
    if b = 0x2B then some (.number .exponentSign { n with exponent := some (false, []) })
    else if b = 0x2D then some (.number .exponentSign { n with exponent := some (true, []) })
    else none
  | .zero, none | .whole, none =>
    if b = 0x2E then some (.number .point n)
    else if b = 0x65 ∨ b = 0x45 then some (.number .exponentMark n)
    else none
  | .fraction, none => if b = 0x65 ∨ b = 0x45 then some (.number .exponentMark n) else none
  | .minus, none | .point, none | .exponentSign, none | .exponent, none => none
  | .zero, some _ => none

def step (s : Scanner) (b : UInt8) : Except Fault Scanner :=
  match s.mode with
  | .between => openLexeme s.lexemes b
  | .word [] _ => .error .unexpectedByte
  | .word [c] lexeme => if b = c then .ok (emit s.lexemes lexeme) else .error .unexpectedByte
  | .word (c :: rest) lexeme =>
    if b = c then .ok ⟨s.lexemes, .word rest lexeme⟩ else .error .unexpectedByte
  | .text pieces =>
    if b = 0x22 then .ok (emit s.lexemes (.text pieces.reverse))
    else if b = 0x5C then .ok ⟨s.lexemes, .escape pieces⟩
    else if b < 0x20 then .error .controlCharacter
    else .ok ⟨s.lexemes, .text (.byte b :: pieces)⟩
  | .escape pieces =>
    if b = 0x75 then .ok ⟨s.lexemes, .unit pieces 4 0⟩
    else match shortEscape? b with
      | some c => .ok ⟨s.lexemes, .text (.byte c :: pieces)⟩
      | none => .error .badEscape
  | .unit pieces missing value =>
    match hexDigit? b with
    | none => .error .badEscape
    | some d =>
      if missing ≤ 1 then .ok ⟨s.lexemes, .text (.unit (16 * value + d) :: pieces)⟩
      else .ok ⟨s.lexemes, .unit pieces (missing - 1) (16 * value + d)⟩
  | .number stage n =>
    match extendNumber? stage n b with
    | some mode => .ok ⟨s.lexemes, mode⟩
    | none =>
      if stage = .zero ∧ (digit? b).isSome then .error .badNumber
      else if stage.complete then openLexeme (numberLexeme n :: s.lexemes) b
      else .error .badNumber

/-- Further bytes. A fault comes with the number of bytes from the faulty one on. -/
def feed (s : Scanner) : Bytes → Except (Fault × Nat) Scanner
  | [] => .ok s
  | b :: rest =>
    match s.step b with
    | .ok s' => feed s' rest
    | .error f => .error (f, rest.length + 1)

def finish (s : Scanner) : Except Fault (List Lexeme) :=
  match s.mode with
  | .between => .ok s.lexemes.reverse
  | .number stage n =>
    if stage.complete then .ok (numberLexeme n :: s.lexemes).reverse else .error .unfinished
  | _ => .error .unfinished

theorem feed_append (s : Scanner) (as bs : Bytes) :
    (∃ s', s.feed as = .ok s' ∧ s.feed (as ++ bs) = s'.feed bs) ∨
      (∃ f n, s.feed as = .error (f, n) ∧ s.feed (as ++ bs) = .error (f, n + bs.length)) := by
  induction as generalizing s with
  | nil => exact Or.inl ⟨s, rfl, rfl⟩
  | cons a rest ih =>
    simp only [List.cons_append, feed]
    cases h : s.step a with
    | ok s' => simpa [h] using ih s'
    | error f =>
      exact Or.inr ⟨f, rest.length + 1, by simp, by simp [Nat.add_right_comm]⟩

end Scanner

/-- The lexemes of a text. A fault comes with the number of bytes from the faulty one on. -/
def lexemes (text : Bytes) : Except (Fault × Nat) (List Lexeme) := do
  let s ← Scanner.start.feed text
  match s.finish with
  | .ok ts => .ok ts
  | .error f => .error (f, 0)

end Reql.Json
