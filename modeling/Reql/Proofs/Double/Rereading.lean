import Reql.Proofs.Double.Shortest
import Reql.Proofs.Json.Numeral

/-! The text of a double is read as a double again, never as a number out of range. -/
namespace Reql.Double

open Json (Numeral absorb)

theorem proper_numeral (d : Double) : d.numeral.Proper := by
  by_cases h : d.isZero = true
  · rw [numeral, if_pos h]
    exact ⟨⟨0, [], rfl, fun _ => rfl⟩, by simp, by simp, by simp⟩
  · have hproper := Digits.proper_numeral
      (shortest_coefficient_ne_zero (Bool.eq_false_iff.mpr h))
    rw [numeral, if_neg h]
    exact ⟨hproper.leading, hproper.whole, hproper.fraction, hproper.exponent⟩

/-- Written digits are the digits themselves, up to zeros after them. -/
theorem Digits.numeral_parts (s : Digits) :
    (s.numeral.coefficient = s.coefficient ∧ s.numeral.scale = s.exponent) ∨
      (0 ≤ s.exponent ∧ s.exponent < 16 ∧
        s.numeral.coefficient = s.coefficient * 10 ^ (s.exponent.toNat + 1) ∧
        s.numeral.scale = -1) := by
  have hdigits := natOfDigits_decimal s.coefficient
  have hpos : 0 < (decimal s.coefficient).length :=
    List.length_pos_of_ne_nil (decimal_ne_nil s.coefficient)
  rw [numeral]
  generalize decimal s.coefficient = ds at hdigits hpos ⊢
  split_ifs with hsmall hpoint hexponent
  · left
    constructor
    · rw [Numeral.coefficient, natOfDigits_append, natOfDigits_append, natOfDigits_replicate_zero,
        hdigits]
      simp [natOfDigits]
    · simp only [Numeral.scale, Numeral.exponentValue, List.length_append, List.length_replicate]
      omega
  · right
    refine ⟨hexponent, by omega, ?_, ?_⟩
    · rw [Numeral.coefficient, natOfDigits_append, natOfDigits_append, natOfDigits_replicate_zero,
        hdigits]
      simp [natOfDigits, Nat.pow_succ, Nat.mul_assoc]
    · simp [Numeral.scale, Numeral.exponentValue]
  · left
    constructor
    · rw [Numeral.coefficient, List.take_append_drop, hdigits]
    · simp only [Numeral.scale, Numeral.exponentValue, List.length_drop]
      omega
  · left
    constructor
    · rw [Numeral.coefficient, List.take_append_drop, hdigits]
    · simp only [Numeral.scale, Numeral.exponentValue, List.length_drop, natOfDigits_decimal]
      by_cases hsign : s.exponent + ds.length ≤ 0
      · rw [decide_eq_true hsign, if_pos rfl]
        omega
      · rw [decide_eq_false hsign, if_neg Bool.false_ne_true]
        omega

theorem Digits.numeral_value (s : Digits) :
    (s.numeral.coefficient : ℚ) * 10 ^ s.numeral.scale = s.value := by
  rcases s.numeral_parts with ⟨hcoefficient, hscale⟩ | ⟨hexponent, -, hcoefficient, hscale⟩
  · rw [hcoefficient, hscale, value]
  · obtain ⟨k, hk⟩ := Int.eq_ofNat_of_zero_le hexponent
    rw [hcoefficient, hscale, value, hk, Int.toNat_natCast, zpow_natCast]
    push_cast
    rw [pow_succ, zpow_neg_one]
    field_simp

theorem Digits.length_whole (s : Digits) : s.numeral.whole.length ≤ 16 := by
  have hpos : 0 < (decimal s.coefficient).length :=
    List.length_pos_of_ne_nil (decimal_ne_nil s.coefficient)
  rw [numeral]
  split_ifs with hsmall hpoint hexponent
  · simp
  · rw [List.length_append, List.length_replicate]
    omega
  · rw [List.length_take]
    omega
  · rw [List.length_take]
    omega

/-- A number is read as a power of ten times a word that is at most its own digits. -/
theorem toDouble?_eq {n : Numeral} (hn : n.Proper) (hlength : n.whole.length ≤ 16) :
    ∃ significand exponent, n.toDouble? =
        (ofScaled? significand exponent).map (fun d => if n.negative then d.neg else d) ∧
      significand < UInt64.size ∧
      (significand : ℚ) * 10 ^ exponent ≤ n.coefficient * 10 ^ n.scale ∧
      (n.coefficient < UInt64.size → significand = n.coefficient ∧ exponent = n.scale) := by
  have hsize : UInt64.size = 18446744073709551616 := rfl
  have hshort : natOfDigits n.whole < UInt64.size :=
    calc natOfDigits n.whole < 10 ^ n.whole.length := natOfDigits_lt hn.whole
      _ ≤ 10 ^ 16 := Nat.pow_le_pow_right (by decide) hlength
      _ ≤ UInt64.size := by decide
  have hwhole : absorb 0 n.whole = (natOfDigits n.whole, 0) := by
    rw [Json.absorb_eq] <;> rw [Nat.zero_mul, Nat.zero_add]
    exact hshort
  have hcoefficient : n.coefficient =
      natOfDigits n.whole * 10 ^ n.fraction.length + natOfDigits n.fraction :=
    natOfDigits_append _ _
  obtain ⟨hlt, hleft, hvalue⟩ := Json.absorb_le hshort n.fraction
  have hfits : n.coefficient < UInt64.size →
      absorb (natOfDigits n.whole) n.fraction = (n.coefficient, 0) := by
    intro h
    rw [hcoefficient] at h ⊢
    exact Json.absorb_eq h
  rw [← hcoefficient] at hvalue
  generalize hall : absorb (natOfDigits n.whole) n.fraction = all at *
  have hexponent : (0 : ℕ) + n.exponentValue - (n.fraction.length - all.2 : ℕ) =
      n.scale + all.2 := by
    rw [Numeral.scale]
    omega
  refine ⟨all.1, n.scale + all.2, ?_, hlt, ?_, ?_⟩
  · rw [Numeral.toDouble?, hwhole, hall, hexponent]
  · have hten : (10 : ℚ) ≠ 0 := by norm_num
    rw [add_comm, zpow_add₀ hten, zpow_natCast, ← mul_assoc]
    gcongr
    exact_mod_cast hvalue
  · intro h
    rw [hfits h]
    exact ⟨rfl, by simp⟩

theorem limit_eq : limit = (((2 ^ 54 - 1) * 2 ^ 970 : ℕ) : ℚ) := by
  have hdouble : (2 : ℚ) ^ (971 : ℤ) = 2 * 2 ^ (970 : ℕ) := by
    rw [← zpow_natCast, ← zpow_one_add₀ two_ne_zero]
    rfl
  rw [limit, hdouble, Nat.cast_mul, Nat.cast_pow, Nat.cast_ofNat]
  generalize (2 : ℚ) ^ 970 = t
  norm_num
  ring

/-- Powers of ten up to the 308th are doubles, later ones are beyond the largest. -/
theorem ten_pow_lt_limit : (10 : ℚ) ^ 308 < limit ∧ limit < (10 : ℚ) ^ 309 := by
  rw [limit_eq]
  constructor
  · have h : 10 ^ 308 < (2 ^ 54 - 1) * 2 ^ 970 := by decide +kernel
    exact_mod_cast h
  · have h : (2 ^ 54 - 1) * 2 ^ 970 < 10 ^ 309 := by decide +kernel
    exact_mod_cast h

theorem exists_tenPow? {k : ℕ} (hk : k ≤ 308) :
    ∃ t, tenPow? k = some t ∧ |t.magnitude - 10 ^ k| ≤ 10 ^ k / 2 ^ 53 := by
  have hlimit : ((10 ^ k : ℕ) : ℚ) < limit := by
    rw [Nat.cast_pow, Nat.cast_ofNat]
    exact (pow_le_pow_right₀ (by norm_num) hk).trans_lt ten_pow_lt_limit.1
  obtain ⟨t, ht, herror⟩ := exists_ofNat? hlimit
  rw [Nat.cast_pow, Nat.cast_ofNat] at herror
  exact ⟨t, ht, herror⟩

theorem exists_div_tenPow? (d : Double) {k : ℕ} (hpos : 1 ≤ k) (hk : k ≤ 308) :
    ∃ t q, tenPow? k = some t ∧ d.div? t = some q := by
  obtain ⟨t, ht, herror⟩ := exists_tenPow? hk
  have hten : (10 : ℚ) ≤ 10 ^ k := le_self_pow₀ (by norm_num) (by omega)
  have hnine : 9 ≤ t.magnitude := by
    obtain ⟨hlow, -⟩ := abs_le.mp herror
    linarith
  have hdiv : d.magnitude / t.magnitude < limit := by
    have hlt := d.magnitude_lt
    have htop : (0 : ℚ) < 2 ^ (971 : ℤ) := by positivity
    rw [div_lt_iff₀ (by linarith), limit]
    generalize (2 : ℚ) ^ (971 : ℤ) = top at hlt htop ⊢
    nlinarith
  obtain ⟨q, hq⟩ := exists_div? (by linarith) hdiv
  exact ⟨t, q, ht, hq⟩

theorem exists_mul_tenPow? {s : Double} {n k : ℕ} (hk : k ≤ 308)
    (hs : |s.magnitude - n| ≤ n / 2 ^ 53)
    (h : (n : ℚ) * 10 ^ k * (1 + 1 / 2 ^ 53) ^ 2 < limit) :
    ∃ t p, tenPow? k = some t ∧ s.mul? t = some p := by
  obtain ⟨t, ht, herror⟩ := exists_tenPow? hk
  have hs' : s.magnitude ≤ n * (1 + 1 / 2 ^ 53) := by
    linarith [(abs_le.mp hs).2]
  have ht' : t.magnitude ≤ 10 ^ k * (1 + 1 / 2 ^ 53) := by
    linarith [(abs_le.mp herror).2]
  have hproduct : s.magnitude * t.magnitude < limit :=
    calc s.magnitude * t.magnitude ≤ n * (1 + 1 / 2 ^ 53) * (10 ^ k * (1 + 1 / 2 ^ 53)) := by
          have := s.magnitude_nonneg
          have := t.magnitude_nonneg
          gcongr
      _ = n * 10 ^ k * (1 + 1 / 2 ^ 53) ^ 2 := by ring
      _ < limit := h
  obtain ⟨p, hp⟩ := exists_mul? hproduct
  exact ⟨t, p, ht, hp⟩

/-- No power of ten beyond the 308th is left over. -/
theorem exponent_le_of_lt_limit {n : ℕ} {k : ℤ} (hn : n ≠ 0)
    (h : (n : ℚ) * 10 ^ k * (1 + 1 / 2 ^ 53) ^ 2 < limit) : k ≤ 308 := by
  by_contra hk
  have hone : (1 : ℚ) ≤ n := by exact_mod_cast Nat.one_le_iff_ne_zero.mpr hn
  have hten : (10 : ℚ) ^ (309 : ℤ) ≤ 10 ^ k := zpow_le_zpow_right₀ (by norm_num) (by omega)
  have hbeyond : (10 : ℚ) ^ 309 < limit :=
    calc (10 : ℚ) ^ 309 = 1 * 10 ^ (309 : ℤ) * 1 := by rw [one_mul, mul_one]; rfl
      _ ≤ n * 10 ^ k * (1 + 1 / 2 ^ 53) ^ 2 := by
        gcongr
        norm_num
      _ < limit := h
  exact lt_asymm hbeyond ten_pow_lt_limit.2

/-- Scaling by a power of ten stays in range if two rounding errors fit below the limit. -/
theorem exists_ofScaled? {significand : ℕ} {exponent : ℤ} (hsize : significand < UInt64.size)
    (h : (significand : ℚ) * 10 ^ exponent * (1 + 1 / 2 ^ 53) ^ 2 < limit) :
    ∃ d, ofScaled? significand exponent = some d := by
  have hsmall : (significand : ℚ) < limit := by
    have hcast : (significand : ℚ) < 10 ^ 20 := by
      exact_mod_cast hsize.trans (by decide : UInt64.size < 10 ^ 20)
    exact hcast.trans ((pow_le_pow_right₀ (by norm_num) (by decide)).trans_lt ten_pow_lt_limit.1)
  obtain ⟨s, hs, herror⟩ := exists_ofNat? hsmall
  rw [ofScaled?, hs]
  change ∃ d, (if 308 < exponent then _ else _) = some d
  split_ifs with hhuge hzero hmul hdiv hdivTwice
  · exact ⟨s, rfl⟩
  · have := exponent_le_of_lt_limit hzero h
    omega
  · lift exponent to ℕ using hmul
    rw [zpow_natCast] at h
    obtain ⟨t, p, ht, hp⟩ := exists_mul_tenPow? (by omega) herror h
    rw [Int.toNat_natCast, ht]
    exact ⟨p, hp⟩
  · obtain ⟨t, q, ht, hq⟩ := exists_div_tenPow? s (k := (-exponent).toNat) (by omega) (by omega)
    rw [ht]
    exact ⟨q, hq⟩
  -- Below the range of the powers of ten the quotient is divided once more.
  · obtain ⟨t, q, ht, hq⟩ := exists_div_tenPow? s (k := 308) (by decide) (by decide)
    obtain ⟨t', q', ht', hq'⟩ :=
      exists_div_tenPow? q (k := (-exponent - 308).toNat) (by omega) (by omega)
    rw [ht, ht']
    refine ⟨q', ?_⟩
    change (s.div? t).bind _ = _
    rw [hq]
    exact hq'
  · exact ⟨zero false, rfl⟩

/-- Two rounding errors fit between the double and the limit. Only the two largest doubles leave
less room. -/
def Roomy (d : Double) : Prop :=
  d.exponent < 971 ∨ d.mantissa < 9007199254740990

theorem shortest_largest (negative : Bool) :
    (⟨negative, 9007199254740991, 971, by decide⟩ : Double).shortest =
        ⟨17976931348623157, 292⟩ ∧
      (⟨negative, 9007199254740990, 971, by decide⟩ : Double).shortest =
        ⟨17976931348623155, 292⟩ := by
  revert negative
  decide +kernel

theorem ofScaled?_largest :
    (ofScaled? 17976931348623157 292).isSome ∧ (ofScaled? 17976931348623155 292).isSome := by
  decide +kernel

theorem upperBound_quarters (d : Double) :
    d.upperBound * (2 : ℚ) ^ (d.exponent - 2) = (d.mantissa + 1 / 2) * 2 ^ d.exponent := by
  rw [upperBound, zpow_sub₀ two_ne_zero]
  push_cast
  ring

theorem upperBound_lt_limit {d : Double} (h : d.Roomy) :
    d.upperBound * (2 : ℚ) ^ (d.exponent - 2) * (1 + 1 / 2 ^ 53) ^ 2 < limit := by
  obtain ⟨hm, -, he, -⟩ := d.canonical
  have htop : (2 : ℚ) ^ (971 : ℤ) = 2 * 2 ^ (970 : ℤ) := by
    rw [← zpow_one_add₀ two_ne_zero]
    rfl
  have hpos : (0 : ℚ) < 2 ^ (970 : ℤ) := by positivity
  rw [upperBound_quarters, limit]
  rcases h with h | h
  · have hmantissa : (d.mantissa : ℚ) ≤ 9007199254740991 := by
      exact_mod_cast Nat.le_of_lt_succ hm
    have hmono : (2 : ℚ) ^ d.exponent ≤ 2 ^ (970 : ℤ) :=
      zpow_le_zpow_right₀ one_le_two (by omega)
    calc ((d.mantissa : ℚ) + 1 / 2) * 2 ^ d.exponent * (1 + 1 / 2 ^ 53) ^ 2 ≤
          (9007199254740991 + 1 / 2) * 2 ^ (970 : ℤ) * (1 + 1 / 2 ^ 53) ^ 2 := by gcongr
      _ < (2 ^ 53 - 1 / 2) * 2 ^ (971 : ℤ) := by
        rw [htop]
        generalize (2 : ℚ) ^ (970 : ℤ) = t at hpos ⊢
        linarith
  · have hmantissa : (d.mantissa : ℚ) ≤ 9007199254740989 := by
      exact_mod_cast Nat.le_of_lt_succ h
    have hmono : (2 : ℚ) ^ d.exponent ≤ 2 ^ (971 : ℤ) := zpow_le_zpow_right₀ one_le_two he
    calc ((d.mantissa : ℚ) + 1 / 2) * 2 ^ d.exponent * (1 + 1 / 2 ^ 53) ^ 2 ≤
          (9007199254740989 + 1 / 2) * 2 ^ (971 : ℤ) * (1 + 1 / 2 ^ 53) ^ 2 := by gcongr
      _ < (2 ^ 53 - 1 / 2) * 2 ^ (971 : ℤ) := by
        rw [htop]
        generalize (2 : ℚ) ^ (970 : ℤ) = t at hpos ⊢
        linarith

theorem shortest_of_not_roomy {d : Double} (h : ¬d.Roomy) :
    d.shortest = ⟨17976931348623157, 292⟩ ∨ d.shortest = ⟨17976931348623155, 292⟩ := by
  obtain ⟨negative, m, e, hcanonical⟩ := d
  obtain ⟨hm, -, he, -⟩ := id hcanonical
  have hm' : m < 9007199254740992 := hm
  have hlargest := shortest_largest negative
  rw [Roomy, not_or, not_lt, not_lt] at h
  dsimp only at h
  obtain rfl : e = 971 := by omega
  obtain rfl | rfl : m = 9007199254740991 ∨ m = 9007199254740990 := by omega
  · exact Or.inl hlargest.1
  · exact Or.inr hlargest.2

/-- The digits of the two largest doubles are worked out. -/
theorem ofScaled?_of_not_roomy {d : Double} (h : ¬d.Roomy) :
    d.shortest.coefficient < UInt64.size ∧ d.shortest.exponent = 292 ∧
      (ofScaled? d.shortest.coefficient d.shortest.exponent).isSome := by
  rcases shortest_of_not_roomy h with h | h <;> rw [h]
  · exact ⟨by decide, rfl, ofScaled?_largest.1⟩
  · exact ⟨by decide, rfl, ofScaled?_largest.2⟩

/-- Every double is read back from its text, though maybe as a neighbour. -/
theorem exists_toDouble? (d : Double) : ∃ d', d.numeral.toDouble? = some d' := by
  have hlength : d.numeral.whole.length ≤ 16 := by
    rw [numeral]
    split
    · simp
    · exact Digits.length_whole _
  obtain ⟨significand, exponent, hread, hsize, hvalue, hexact⟩ :=
    toDouble?_eq (proper_numeral d) hlength
  rw [hread]
  suffices hscaled : ∃ d', ofScaled? significand exponent = some d' by
    obtain ⟨d', hd'⟩ := hscaled
    exact ⟨_, congrArg (Option.map _) hd'⟩
  by_cases hzero : d.isZero = true
  · have hcoefficient : d.numeral.coefficient = 0 := by
      rw [numeral, if_pos hzero]
      rfl
    apply exists_ofScaled? hsize
    rw [hcoefficient, Nat.cast_zero, zero_mul] at hvalue
    calc (significand : ℚ) * 10 ^ exponent * (1 + 1 / 2 ^ 53) ^ 2 ≤ 0 :=
          mul_nonpos_of_nonpos_of_nonneg hvalue (by positivity)
      _ < limit := (by positivity : (0 : ℚ) < 10 ^ 308).trans ten_pow_lt_limit.1
  have hnumeral : d.numeral.coefficient = d.shortest.numeral.coefficient ∧
      d.numeral.scale = d.shortest.numeral.scale := by
    rw [numeral, if_neg hzero]
    exact ⟨rfl, rfl⟩
  by_cases hroomy : d.Roomy
  · apply exists_ofScaled? hsize
    rw [hnumeral.1, hnumeral.2, Digits.numeral_value] at hvalue
    have hupper := (shortest_bounds (Bool.eq_false_iff.mpr hzero)).2
    refine lt_of_le_of_lt ?_ (upperBound_lt_limit hroomy)
    exact mul_le_mul_of_nonneg_right (hvalue.trans hupper) (by positivity)
  · obtain ⟨hword, hexponent, hsome⟩ := ofScaled?_of_not_roomy hroomy
    rcases d.shortest.numeral_parts with ⟨hdigits, hscale⟩ | ⟨-, hsmall, -⟩
    · rw [hnumeral.1, hnumeral.2, hdigits, hscale] at hexact
      obtain ⟨rfl, rfl⟩ := hexact hword
      exact Option.isSome_iff_exists.mp hsome
    · omega

theorem exists_ofNumeral (d : Double) : ∃ j, Json.ofNumeral d.numeral = .ok j := by
  obtain ⟨d', hd'⟩ := exists_toDouble? d
  rw [Json.ofNumeral, hd']
  exact (Classical.em _).elim (fun h => ⟨_, dif_pos h⟩) fun h => ⟨_, dif_neg h⟩

end Reql.Double
