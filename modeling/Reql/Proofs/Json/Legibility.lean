import Reql.Proofs.Json.Reading

/-! Which trees are documents: those whose numbers are in range, whose texts are Unicode, and that
are not nested too deep. -/
namespace Reql

theorem exists_bind_ok_iff {ε α β : Type} {x : Except ε α} {f : α → Except ε β} :
    (∃ b, (x >>= f) = .ok b) ↔ ∃ a, x = .ok a ∧ ∃ b, f a = .ok b := by
  simp only [bind_eq_ok_iff]
  rw [exists_comm]
  exact exists_congr fun a => exists_and_left

/-- Two results are there together if each is. -/
theorem exists_both_ok_iff {ε α β γ : Type} {x : Except ε α} {y : Except ε β} {f : α → β → γ} :
    (∃ c, (do return f (← x) (← y)) = .ok c) ↔ (∃ a, x = .ok a) ∧ ∃ b, y = .ok b := by
  simp [exists_bind_ok_iff, pure, Except.pure]

namespace Json

/-- The number is not beyond the largest double. -/
def Numeral.InRange (n : Numeral) : Prop :=
  n.toDouble?.isSome = true

/-- The number is written without sign, fraction or exponent, and is this unsigned word. -/
structure Numeral.IsWord (n : Numeral) (w : UInt64) : Prop where
  unsigned : n.negative = false
  fraction : n.fraction = []
  exponent : n.exponent = none
  value : Double.natOfDigits n.whole = w.toNat

def IsText (pieces : List Piece) : Prop :=
  ∃ s, stringOfPieces pieces = .ok s

namespace Tree

mutual

/-- How many arrays and objects are nested in each other. -/
def depth : Tree → Nat
  | .list items => depthItems items + 1
  | .record fields => depthFields fields + 1
  | _ => 0

def depthItems : List Tree → Nat
  | [] => 0
  | t :: rest => max (depth t) (depthItems rest)

def depthFields : List (List Piece × Tree) → Nat
  | [] => 0
  | (_, t) :: rest => max (depth t) (depthFields rest)

end

mutual

/-- Every number is in range, and every text and every name is Unicode. -/
def Legible : Tree → Prop
  | .null | .bool _ => True
  | .number n => n.InRange
  | .text pieces => IsText pieces
  | .list items => LegibleItems items
  | .record fields => LegibleFields fields

def LegibleItems : List Tree → Prop
  | [] => True
  | t :: rest => Legible t ∧ LegibleItems rest

def LegibleFields : List (List Piece × Tree) → Prop
  | [] => True
  | (name, t) :: rest => IsText name ∧ Legible t ∧ LegibleFields rest

end

/-- The tree is legible and has at most so many arrays and objects in each other. -/
def Readable (levels : Nat) (t : Tree) : Prop :=
  t.depth ≤ levels ∧ t.Legible

end Tree

variable {n : Numeral} {w : UInt64}

/-- Digits that all fit are taken as they are. -/
theorem absorb_of_eq_zero {significand : Nat} {ds : List Nat} (hsize : significand < UInt64.size)
    (h : (absorb significand ds).2 = 0) :
    (absorb significand ds).1 = significand * 10 ^ ds.length + Double.natOfDigits ds := by
  induction ds generalizing significand with
  | nil => simp [absorb, Double.natOfDigits]
  | cons d rest ih =>
    rw [absorb] at h ⊢
    split at h
    next hfits =>
      rw [if_pos hfits, ih hfits h, natOfDigits_shift]
    next => cases h

/-- A number that is written as an integer and fits a word is in range. -/
theorem Numeral.inRange_of_fits (hfraction : n.fraction = []) (hexponent : n.exponent = none)
    (hfits : (absorb 0 n.whole).2 = 0) : n.InRange := by
  have hsize : (absorb 0 n.whole).1 < UInt64.size := (absorb_le (by decide) n.whole).1
  have hsmall :
      ((absorb 0 n.whole).1 : ℚ) * 10 ^ (0 : ℤ) * (1 + 1 / 2 ^ 53) ^ 2 < Double.limit := by
    have hcast : ((absorb 0 n.whole).1 : ℚ) < 10 ^ 20 := by
      exact_mod_cast hsize.trans (by decide : UInt64.size < 10 ^ 20)
    have hlimit : (10 : ℚ) ^ 21 < Double.limit :=
      (pow_lt_pow_right₀ (by norm_num) (by decide)).trans Double.ten_pow_lt_limit.1
    calc ((absorb 0 n.whole).1 : ℚ) * 10 ^ (0 : ℤ) * (1 + 1 / 2 ^ 53) ^ 2
        ≤ 10 ^ 20 * 1 * 10 := by gcongr <;> norm_num
      _ = 10 ^ 21 := by norm_num
      _ < Double.limit := hlimit
  obtain ⟨d, hd⟩ := Double.exists_ofScaled? hsize hsmall
  simp [InRange, toDouble?, hfraction, absorb, exponentValue, hexponent, hfits, hd]

/-- Numbers in range are documents, whichever kind they are of. -/
theorem exists_ofNumeral_iff : (∃ j, ofNumeral n = .ok j) ↔ n.InRange := by
  constructor
  · rintro ⟨j, h⟩
    -- An integer is taken without a conversion to a double, but it would have succeeded.
    rcases dite_eq_iff.mp h with ⟨⟨⟨hfraction, hexponent, hfits, -⟩, -⟩, -⟩ | ⟨-, h⟩
    · exact Numeral.inRange_of_fits hfraction hexponent hfits
    · rw [Numeral.InRange]
      split at h
      next d hd => rw [hd]; rfl
      next => cases h
  · intro h
    obtain ⟨d, hd⟩ := Option.isSome_iff_exists.mp h
    have heither {p : Prop} [Decidable p] (int : p → Json) :
        ∃ j, (if h : p then .ok (int h) else .ok (.double d) : Except Fault Json) = .ok j := by
      by_cases hp : p
      · exact ⟨int hp, dif_pos hp⟩
      · exact ⟨.double d, dif_neg hp⟩
    simp only [ofNumeral, hd]
    exact heither _

theorem toUInt64?_int_iff {i : Integer} : (Json.int i).toUInt64? = some w ↔ i.val = w.toNat := by
  have hlt := w.toNat_lt
  obtain ⟨i, hlow, hhigh⟩ := i
  simp only [toUInt64?, Option.ite_none_right_eq_some, Option.some.injEq]
  constructor
  · rintro ⟨hsign, rfl⟩
    rw [UInt64.toNat_ofNat_of_lt' (by rw [UInt64.size]; omega)]
    omega
  · intro h
    refine ⟨by omega, UInt64.toNat_inj.mp ?_⟩
    rw [UInt64.toNat_ofNat_of_lt' (by rw [UInt64.size]; omega)]
    omega

/-- The numbers that are unsigned words. -/
theorem ofNumeral_word_iff :
    (∃ j, ofNumeral n = .ok j ∧ j.toUInt64? = some w) ↔ n.IsWord w := by
  constructor
  · rintro ⟨j, h, hw⟩
    rcases dite_eq_iff.mp h with ⟨⟨⟨hfraction, hexponent, hfits, hzero⟩, _⟩, hj⟩ | ⟨-, hj⟩
    · have hvalue := absorb_of_eq_zero (by decide) hfits
      rw [Nat.zero_mul, Nat.zero_add] at hvalue
      rw [← Except.ok.inj hj, toUInt64?_int_iff] at hw
      simp only at hw
      -- A number with a sign is less than zero, or minus zero, which is a double.
      cases hsign : n.negative with
      | true =>
        rw [hsign, Bool.true_and, beq_eq_false_iff_ne] at hzero
        rw [hsign, if_pos rfl] at hw
        omega
      | false =>
        rw [hsign, if_neg Bool.false_ne_true] at hw
        exact ⟨hsign, hfraction, hexponent, by omega⟩
    · split at hj
      · rw [← Except.ok.inj hj] at hw
        cases hw
      · cases hj
  · rintro ⟨hunsigned, hfraction, hexponent, hvalue⟩
    have hlt := w.toNat_lt
    have habsorb : absorb 0 n.whole = (w.toNat, 0) := by
      have hfits : 0 * 10 ^ n.whole.length + Double.natOfDigits n.whole < UInt64.size := by
        rw [Nat.zero_mul, Nat.zero_add, hvalue]
        exact hlt
      rw [absorb_eq hfits, Nat.zero_mul, Nat.zero_add, hvalue]
    refine ⟨.ofUInt64 w, ?_, toUInt64?_int_iff.mpr rfl⟩
    simp only [ofNumeral, habsorb, hunsigned, hfraction, hexponent]
    exact dif_pos ⟨⟨trivial, trivial, trivial, rfl⟩, by simp; omega⟩

namespace Tree

mutual

theorem exists_ofTree_iff : ∀ (t : Tree) (levels : Nat),
    (∃ j, ofTree levels t = .ok j) ↔ t.Readable levels
  | .null, _ | .bool _, _ => iff_of_true ⟨_, rfl⟩ ⟨Nat.zero_le _, trivial⟩
  | .number n, levels => by
    rw [ofTree, exists_ofNumeral_iff]
    exact (and_iff_right (Nat.zero_le levels)).symm
  | .text pieces, levels => by
    rw [ofTree, exists_bind_ok_iff]
    simp [pure, Except.pure, Readable, depth, Legible, IsText]
  | .list items, 0 | .record fields, 0 => by
    simp [ofTree, Readable, depth]
  | .list items, levels + 1 => by
    rw [ofTree, exists_bind_ok_iff]
    simp [pure, Except.pure, Readable, depth, Legible, exists_ofTrees_iff items levels]
  | .record fields, levels + 1 => by
    rw [ofTree, exists_bind_ok_iff]
    simp [pure, Except.pure, Readable, depth, Legible, exists_ofFieldTrees_iff fields levels]

theorem exists_ofTrees_iff : ∀ (items : List Tree) (levels : Nat),
    (∃ js, ofTrees levels items = .ok js) ↔ depthItems items ≤ levels ∧ LegibleItems items
  | [], levels => by simp [ofTrees, depthItems, LegibleItems]
  | t :: rest, levels => by
    rw [ofTrees, exists_both_ok_iff, exists_ofTree_iff t levels, exists_ofTrees_iff rest levels,
      Readable, depthItems, LegibleItems, Nat.max_le]
    exact and_and_and_comm

theorem exists_ofFieldTrees_iff : ∀ (fields : List (List Piece × Tree)) (levels : Nat),
    (∃ fs, ofFieldTrees levels fields = .ok fs) ↔
      depthFields fields ≤ levels ∧ LegibleFields fields
  | [], levels => by simp [ofFieldTrees, depthFields, LegibleFields]
  | (name, t) :: rest, levels => by
    have hboth : (∃ fs, ofFieldTrees levels ((name, t) :: rest) = .ok fs) ↔
        IsText name ∧ (∃ j, ofTree levels t = .ok j) ∧ ∃ fs, ofFieldTrees levels rest = .ok fs := by
      rw [ofFieldTrees, exists_bind_ok_iff]
      simp only [exists_both_ok_iff, exists_and_right, IsText]
    rw [hboth, exists_ofTree_iff t levels, exists_ofFieldTrees_iff rest levels, Readable,
      depthFields, LegibleFields, Nat.max_le, and_and_and_comm]
    exact and_left_comm

end

theorem readableItems_iff {items : List Tree} {levels : Nat} :
    depthItems items ≤ levels ∧ LegibleItems items ↔ ∀ t ∈ items, t.Readable levels := by
  induction items with
  | nil => simp [depthItems, LegibleItems]
  | cons t items ih =>
    rw [depthItems, LegibleItems, Nat.max_le, and_and_and_comm, ih, List.forall_mem_cons, Readable]

end Tree
end Json
end Reql
