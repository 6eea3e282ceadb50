import Mathlib.Data.List.Induction
import Mathlib.Tactic.Ring
import Reql.Json.Printer
import Reql.Json.Reader

/-! Numbers as they are written, digit by digit. -/
namespace Reql

open Double (natOfDigits)

def decimal (n : Nat) : List Nat :=
  if n < 10 then [n] else decimal (n / 10) ++ [n % 10]

theorem decimal_of_lt {n : Nat} (h : n < 10) : decimal n = [n] := by
  rw [decimal, if_pos h]

theorem decimal_of_ge {n : Nat} (h : ¬n < 10) : decimal n = decimal (n / 10) ++ [n % 10] := by
  rw [decimal, if_neg h]

theorem map_digitChar_decimal (n : Nat) :
    (decimal n).map Nat.digitChar = Nat.toDigits 10 n := by
  induction n using decimal.induct with
  | case1 n h => rw [decimal_of_lt h, Nat.toDigits_of_lt_base h, List.map_singleton]
  | case2 n h ih =>
    have hge : 10 ≤ n := by omega
    rw [decimal_of_ge h, Nat.toDigits_of_base_le (by decide) hge, List.map_append, ih,
      List.map_singleton]

theorem lt_ten_of_mem_decimal {n d : Nat} (h : d ∈ decimal n) : d < 10 := by
  induction n using decimal.induct with
  | case1 n hn =>
    rw [decimal_of_lt hn, List.mem_singleton] at h
    omega
  | case2 n hn ih =>
    rw [decimal_of_ge hn, List.mem_append, List.mem_singleton] at h
    rcases h with h | h
    · exact ih h
    · omega

/-- Only zero begins with the digit zero. -/
theorem exists_decimal (n : Nat) : ∃ d rest, decimal n = d :: rest ∧ (d = 0 → n = 0) := by
  induction n using decimal.induct with
  | case1 n h => exact ⟨n, [], decimal_of_lt h, id⟩
  | case2 n h ih =>
    obtain ⟨d, rest, hdigits, hzero⟩ := ih
    refine ⟨d, rest ++ [n % 10], by rw [decimal_of_ge h, hdigits]; rfl, ?_⟩
    intro hd
    have := hzero hd
    omega

theorem decimal_ne_nil (n : Nat) : decimal n ≠ [] := by
  obtain ⟨d, rest, h, -⟩ := exists_decimal n
  rw [h]
  exact List.cons_ne_nil d rest

theorem natOfDigits_concat (ds : List Nat) (d : Nat) :
    natOfDigits (ds ++ [d]) = 10 * natOfDigits ds + d := by
  rw [natOfDigits, List.foldl_append]
  rfl

theorem natOfDigits_append (ds es : List Nat) :
    natOfDigits (ds ++ es) = natOfDigits ds * 10 ^ es.length + natOfDigits es := by
  induction es using List.reverseRecOn with
  | nil => simp [natOfDigits]
  | append_singleton es e ih =>
    rw [← List.append_assoc, natOfDigits_concat, ih, natOfDigits_concat, List.length_append,
      List.length_singleton, Nat.pow_succ]
    ring

theorem natOfDigits_decimal (n : Nat) : natOfDigits (decimal n) = n := by
  induction n using decimal.induct with
  | case1 n h => rw [decimal_of_lt h]; simp [natOfDigits]
  | case2 n h ih =>
    rw [decimal_of_ge h, natOfDigits_concat, ih]
    omega

theorem natOfDigits_replicate_zero (k : Nat) : natOfDigits (List.replicate k 0) = 0 := by
  induction k with
  | zero => rfl
  | succ k ih =>
    rw [List.replicate_succ', natOfDigits_concat, ih]

theorem natOfDigits_shift (n d : Nat) (ds : List Nat) :
    n * 10 ^ (d :: ds).length + natOfDigits (d :: ds) =
      (10 * n + d) * 10 ^ ds.length + natOfDigits ds := by
  rw [← List.singleton_append, natOfDigits_append]
  simp only [natOfDigits, List.foldl_cons, List.foldl_nil, List.length_append,
    List.length_singleton]
  ring

theorem natOfDigits_lt {ds : List Nat} (h : ∀ d ∈ ds, d < 10) :
    natOfDigits ds < 10 ^ ds.length := by
  induction ds using List.reverseRecOn with
  | nil => simp [natOfDigits]
  | append_singleton ds d ih =>
    have hd := h d (by simp)
    have hrest := ih fun e he => h e (List.mem_append_left _ he)
    rw [natOfDigits_concat, List.length_append, List.length_singleton, Nat.pow_succ]
    omega

namespace Json

theorem absorb_eq {significand : Nat} {ds : List Nat}
    (h : significand * 10 ^ ds.length + natOfDigits ds < UInt64.size) :
    absorb significand ds = (significand * 10 ^ ds.length + natOfDigits ds, 0) := by
  induction ds generalizing significand with
  | nil => simp [absorb, natOfDigits]
  | cons d rest ih =>
    rw [natOfDigits_shift] at h ⊢
    have hfits : 10 * significand + d < UInt64.size := by
      have : 10 * significand + d ≤ (10 * significand + d) * 10 ^ rest.length :=
        Nat.le_mul_of_pos_right _ (Nat.pow_pos (by decide))
      omega
    rw [absorb, if_pos hfits, ih h]

/-- Digits are dropped from the end only. -/
theorem absorb_le {significand : Nat} (hsize : significand < UInt64.size) (ds : List Nat) :
    (absorb significand ds).1 < UInt64.size ∧ (absorb significand ds).2 ≤ ds.length ∧
      (absorb significand ds).1 * 10 ^ (absorb significand ds).2 ≤
        significand * 10 ^ ds.length + natOfDigits ds := by
  induction ds generalizing significand with
  | nil => exact ⟨hsize, Nat.le_refl 0, by simp [absorb]⟩
  | cons d rest ih =>
    rw [absorb]
    split
    next hfits =>
      obtain ⟨hlt, hlength, hvalue⟩ := ih hfits
      rw [natOfDigits_shift]
      exact ⟨hlt, Nat.le_succ_of_le hlength, hvalue⟩
    next hfull => exact ⟨hsize, Nat.le_refl _, Nat.le_add_right _ _⟩

end Json

namespace Json.Numeral

/-- The characters of a number, as it is printed. -/
def chars (n : Numeral) : List Char :=
  (if n.negative then ['-'] else []) ++ n.whole.map Nat.digitChar ++
    (if n.fraction = [] then [] else '.' :: n.fraction.map Nat.digitChar) ++
    match n.exponent with
    | none => []
    | some (negative, digits) =>
      'e' :: (if negative then '-' else '+') :: digits.map Nat.digitChar

/-- The number has the form that JSON asks for. -/
structure Proper (n : Numeral) : Prop where
  leading : ∃ d rest, n.whole = d :: rest ∧ (d = 0 → rest = [])
  whole : ∀ d ∈ n.whole, d < 10
  fraction : ∀ d ∈ n.fraction, d < 10
  exponent : ∀ e ∈ n.exponent, e.2 ≠ [] ∧ ∀ d ∈ e.2, d < 10

def coefficient (n : Numeral) : Nat :=
  natOfDigits (n.whole ++ n.fraction)

def scale (n : Numeral) : Int :=
  n.exponentValue - n.fraction.length

def ofInt (n : Int) : Numeral :=
  ⟨decide (n < 0), decimal n.natAbs, [], none⟩

theorem toString_eq_chars (n : Int) : toString n = String.ofList (ofInt n).chars := by
  have hdigits (m : Nat) : m.repr = String.ofList ((decimal m).map Nat.digitChar) := by
    rw [map_digitChar_decimal, Nat.repr_eq_ofList_toDigits]
  cases n with
  | ofNat m =>
    have hsign : ¬(m : Int) < 0 := by omega
    change m.repr = _
    simp [ofInt, chars, hdigits, hsign]
  | negSucc m =>
    change "-" ++ (m + 1).repr = _
    simp [ofInt, chars, hdigits, Int.negSucc_lt_zero]

theorem proper_ofInt (n : Int) : (ofInt n).Proper where
  leading := by
    obtain ⟨d, rest, hdigits, hzero⟩ := exists_decimal n.natAbs
    refine ⟨d, rest, hdigits, fun hd => ?_⟩
    rw [hzero hd, decimal_of_lt (by decide)] at hdigits
    exact (List.cons.inj hdigits).2.symm
  whole := fun _ => lt_ten_of_mem_decimal
  fraction := by simp [ofInt]
  exponent := by simp [ofInt]

end Json.Numeral

namespace Double

open Json (Numeral)

def Digits.numeral (s : Digits) : Numeral :=
  let ds := decimal s.coefficient
  let point : Int := s.exponent + ds.length
  if -4 ≤ point ∧ point ≤ 0 then
    ⟨false, [0], List.replicate (-point).toNat 0 ++ ds, none⟩
  else if 0 < point ∧ point ≤ 16 then
    if 0 ≤ s.exponent then ⟨false, ds ++ List.replicate s.exponent.toNat 0, [0], none⟩
    else ⟨false, ds.take point.toNat, ds.drop point.toNat, none⟩
  else ⟨false, ds.take 1, ds.drop 1, some (decide (point ≤ 0), decimal (point - 1).natAbs)⟩

def numeral (d : Double) : Numeral :=
  { (if d.isZero then ⟨false, [0], [0], none⟩ else d.shortest.numeral) with
    negative := d.negative }

theorem Digits.text_eq_chars (s : Digits) : s.text = String.ofList s.numeral.chars := by
  have hlength : (Nat.toDigits 10 s.coefficient).length = (decimal s.coefficient).length := by
    rw [← map_digitChar_decimal, List.length_map]
  have hne := decimal_ne_nil s.coefficient
  have hzero : Nat.digitChar 0 = '0' := rfl
  simp only [text, numeral, hlength]
  split
  next h =>
    simp [Numeral.chars, hne, ← map_digitChar_decimal, hzero]
  next h =>
    split
    next hpoint =>
      split
      next hexponent =>
        simp [Numeral.chars, ← map_digitChar_decimal, hzero]
      next hexponent =>
        have hdrop : ¬(decimal s.coefficient).length ≤
            (s.exponent + (decimal s.coefficient).length).toNat := by omega
        simp [Numeral.chars, ← map_digitChar_decimal, hdrop]
    next hpoint =>
      have hsign : (if 0 < s.exponent + (decimal s.coefficient).length then '+' else '-') =
          if decide (s.exponent + (decimal s.coefficient).length ≤ 0) then '-' else '+' := by
        by_cases h : 0 < s.exponent + (decimal s.coefficient).length
        · simp only [if_pos h, decide_eq_false (not_le.mpr h), Bool.false_eq_true, if_false]
        · simp only [if_neg h, decide_eq_true (not_lt.mp h), if_true]
      rw [hsign, ← map_digitChar_decimal, ← List.map_drop]
      cases hrest : (decimal s.coefficient).drop 1 with
      | nil => simp [Numeral.chars, ← map_digitChar_decimal]
      | cons d rest => simp [Numeral.chars, ← map_digitChar_decimal]

theorem text_eq_chars (d : Double) : d.text = String.ofList d.numeral.chars := by
  have hsigned (n : Numeral) (hn : n.negative = false) :
      (if d.negative then "-" ++ String.ofList n.chars else String.ofList n.chars) =
        String.ofList ({ n with negative := d.negative } : Numeral).chars := by
    cases d.negative <;> simp [Numeral.chars, hn]
  have hpositive (s : Digits) : s.numeral.negative = false := by
    rw [Digits.numeral]
    split_ifs <;> rfl
  by_cases h : d.isZero = true
  · simp only [text, numeral, h, if_true]
    exact hsigned ⟨false, [0], [0], none⟩ rfl
  · simp only [text, numeral, h, Digits.text_eq_chars]
    exact hsigned d.shortest.numeral (hpositive d.shortest)

theorem Digits.proper_numeral {s : Digits} (h : s.coefficient ≠ 0) : s.numeral.Proper := by
  obtain ⟨d, rest, hdigits, hzero⟩ := exists_decimal s.coefficient
  have hd : d ≠ 0 := fun hd => h (hzero hd)
  have hlt : ∀ e ∈ d :: rest, e < 10 := by
    intro e he
    rw [← hdigits] at he
    exact lt_ten_of_mem_decimal he
  have hzeros (k : Nat) : ∀ e ∈ List.replicate k 0, e < 10 := by
    intro e he
    rw [List.eq_of_mem_replicate he]
    decide
  rw [numeral, hdigits]
  split_ifs with hsmall hpoint hexponent
  · exact {
      leading := ⟨0, [], rfl, fun _ => rfl⟩
      whole := by simp
      fraction := fun e he => (List.mem_append.mp he).elim (hzeros _ e) (hlt e)
      exponent := by simp }
  · exact {
      leading := ⟨d, _, rfl, fun hzero => absurd hzero hd⟩
      whole := fun e he => (List.mem_append.mp he).elim (hlt e) (hzeros _ e)
      fraction := by simp
      exponent := by simp }
  · have hsome : ∃ k, (s.exponent + (d :: rest).length).toNat = k + 1 :=
      Nat.exists_eq_succ_of_ne_zero (by omega)
    obtain ⟨k, hk⟩ := hsome
    exact {
      leading := ⟨d, rest.take k, by rw [hk, List.take_succ_cons], fun hzero => absurd hzero hd⟩
      whole := fun e he => hlt e (List.mem_of_mem_take he)
      fraction := fun e he => hlt e (List.mem_of_mem_drop he)
      exponent := by simp }
  · exact {
      leading := ⟨d, [], rfl, fun _ => rfl⟩
      whole := fun e he => hlt e (List.mem_of_mem_take he)
      fraction := fun e he => hlt e (List.mem_of_mem_drop he)
      exponent := by
        rintro _ ⟨⟩
        exact ⟨decimal_ne_nil _, fun _ => lt_ten_of_mem_decimal⟩ }

end Double
end Reql
