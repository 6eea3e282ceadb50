/-! Pieces of settings text: blank characters, segments and numbers. -/
namespace Reql.Settings

/-- The characters that count as blank: those of the Unicode property `White_Space`. -/
def isBlank (c : Char) : Bool :=
  let n := c.toNat
  (0x09 ≤ n && n ≤ 0x0D) || n == 0x20 || n == 0x85 || n == 0xA0 || n == 0x1680
    || (0x2000 ≤ n && n ≤ 0x200A) || n == 0x2028 || n == 0x2029 || n == 0x202F || n == 0x205F
    || n == 0x3000

def trim (cs : List Char) : List Char :=
  ((cs.dropWhile isBlank).reverse.dropWhile isBlank).reverse

/-- The parts of a text between separators; there is always at least one. -/
def splitAt (separator : Char) : List Char → List (List Char)
  | [] => [[]]
  | c :: rest =>
    if c = separator then [] :: splitAt separator rest
    else
      match splitAt separator rest with
      | [] => [[c]]
      | part :: parts => (c :: part) :: parts

def cut? (separator : Char) : List Char → Option (List Char × List Char)
  | [] => none
  | c :: rest =>
    if c = separator then some ([], rest)
    else (cut? separator rest).map fun p => (c :: p.1, p.2)

/-- The value of decimal digits read after `n`, if all are digits and the value fits a word. -/
def wordFrom? (n : Nat) : List Char → Option UInt64
  | [] => some (UInt64.ofNat n)
  | c :: rest =>
    if '0' ≤ c ∧ c ≤ '9' then
      let m := 10 * n + (c.toNat - '0'.toNat)
      if m < UInt64.size then wordFrom? m rest else none
    else none

/-- The word that a decimal text writes; a plus sign may stand in front. -/
def word? : List Char → Option UInt64
  | [] => none
  | ['+'] => none
  | '+' :: digits => wordFrom? 0 digits
  | digits => wordFrom? 0 digits

end Reql.Settings
