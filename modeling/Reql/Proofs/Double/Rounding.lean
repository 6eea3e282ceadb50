import Mathlib.Data.Rat.Cast.Order
import Mathlib.Algebra.Order.Field.Power
import Mathlib.Tactic.FieldSimp
import Mathlib.Tactic.Linarith
import Mathlib.Tactic.NormNum
import Mathlib.Tactic.Positivity
import Mathlib.Tactic.Ring
import Reql.Double.Decimal

/-! Rounding to the nearest double, measured against exact rational numbers. -/
namespace Reql.Double

def magnitude (d : Double) : ℚ :=
  d.mantissa * (2 : ℚ) ^ d.exponent

/-- From here on a number rounds beyond the largest double. -/
def limit : ℚ :=
  (2 ^ 53 - 1 / 2) * (2 : ℚ) ^ (971 : ℤ)

theorem pow_toNat {b : ℚ} (hb : b ≠ 0) (e : ℤ) : b ^ e.toNat = b ^ e * b ^ (-e).toNat := by
  rw [← zpow_natCast, ← zpow_natCast, ← zpow_add₀ hb]
  congr 1
  omega

theorem shiftLeft_cast (n k : ℕ) : ((n <<< k : ℕ) : ℚ) = n * 2 ^ k := by
  rw [Nat.shiftLeft_eq]
  push_cast
  rfl

theorem numerator_div_denominator (d : Double) :
    (d.numerator : ℚ) / d.denominator = d.magnitude := by
  have hpos : (0 : ℚ) < 2 ^ (-d.exponent).toNat := by positivity
  rw [numerator, denominator, shiftLeft_cast, shiftLeft_cast, pow_toNat two_ne_zero,
    magnitude]
  field_simp
  push_cast
  ring

theorem denominator_pos (d : Double) : 0 < d.denominator := by
  rw [denominator, Nat.one_shiftLeft]
  positivity

/-- Scaling divides the ratio by a power of two. -/
theorem descale_ratio (num : ℕ) {den : ℕ} (hden : 0 < den) (e : ℤ) :
    0 < (descale num den e).2 ∧
    ((descale num den e).1 : ℚ) / (descale num den e).2 = num / den / (2 : ℚ) ^ e := by
  have hd : (0 : ℚ) < den := by exact_mod_cast hden
  have hup : (0 : ℚ) < 2 ^ e := by positivity
  have hdown : (0 : ℚ) < 2 ^ (-e).toNat := by positivity
  constructor
  · exact Nat.mul_pos hden (Nat.pow_pos (by decide)) |>.trans_eq (Nat.shiftLeft_eq _ _).symm
  · rw [descale, shiftLeft_cast, shiftLeft_cast, pow_toNat two_ne_zero e]
    field_simp

theorem divRoundEven_error (num : ℕ) {den : ℕ} (hden : 0 < den) :
    |(divRoundEven num den : ℚ) - num / den| ≤ 1 / 2 := by
  have hd : (0 : ℚ) < den := by exact_mod_cast hden
  have hdivision : (num : ℚ) = den * (num / den : ℕ) + (num % den : ℕ) := by
    exact_mod_cast (Nat.div_add_mod num den).symm
  have hparity : ((num / den % 2 : ℕ) : ℚ) ≤ 1 := by
    exact_mod_cast (show num / den % 2 ≤ 1 by omega)
  have hrest : ((num % den : ℕ) : ℚ) < den := by exact_mod_cast Nat.mod_lt num hden
  rw [divRoundEven]
  generalize num / den = q at hdivision hparity ⊢
  generalize num % den = r at hdivision hrest ⊢
  have hratio : (num : ℚ) / den = q + r / den := by
    rw [hdivision]
    field_simp
  rw [hratio, abs_le]
  split_ifs with hbelow habove
  · have hhalf : (r : ℚ) / den < 1 / 2 := by
      rw [div_lt_div_iff₀ hd two_pos]
      exact_mod_cast (show r * 2 < 1 * den by omega)
    have hr : (0 : ℚ) ≤ r / den := by positivity
    constructor <;> linarith
  · have hhalf : (1 : ℚ) / 2 < r / den := by
      rw [div_lt_div_iff₀ two_pos hd]
      exact_mod_cast (show 1 * den < r * 2 by omega)
    have hr : (r : ℚ) / den < 1 := (div_lt_one hd).mpr hrest
    push_cast
    constructor <;> linarith
  · have hhalf : (r : ℚ) / den = 1 / 2 := by
      rw [div_eq_div_iff hd.ne' two_ne_zero]
      exact_mod_cast (show r * 2 = 1 * den by omega)
    have hparity₀ : (0 : ℚ) ≤ (q % 2 : ℕ) := Nat.cast_nonneg _
    push_cast at hparity hparity₀ ⊢
    constructor <;> linarith

theorem two_zpow_log2 {n : ℕ} (hn : 0 < n) :
    (2 : ℚ) ^ (n.log2 : ℤ) ≤ n ∧ (n : ℚ) < (2 : ℚ) ^ (n.log2 + 1 : ℤ) := by
  constructor
  · rw [zpow_natCast]
    exact_mod_cast Nat.log2_self_le hn.ne'
  · rw [← Nat.cast_succ, zpow_natCast]
    exact_mod_cast Nat.lt_log2_self

/-- A ratio over its quantum: 53 binary digits before the point, or fewer over the least quantum. -/
structure Scaled (q : ℚ) (e : ℤ) : Prop where
  least : -1074 ≤ e
  high : q < 2 ^ 53
  low : e = -1074 ∨ 2 ^ 52 ≤ q

theorem log2_ratio {num den : ℕ} (hnum : 0 < num) (hden : 0 < den) {e : ℤ}
    (he : (num.log2 : ℤ) - den.log2 - 53 = e) :
    2 ^ 52 * (2 : ℚ) ^ e ≤ num / den ∧ (num : ℚ) / den < 2 ^ 54 * (2 : ℚ) ^ e := by
  have hd : (0 : ℚ) < den := by exact_mod_cast hden
  obtain ⟨hnlow, hnhigh⟩ := two_zpow_log2 hnum
  obtain ⟨hdlow, hdhigh⟩ := two_zpow_log2 hden
  constructor
  · have hpow : 2 ^ 52 * (2 : ℚ) ^ e * (2 : ℚ) ^ (den.log2 + 1 : ℤ) = (2 : ℚ) ^ (num.log2 : ℤ) := by
      rw [← zpow_natCast, ← zpow_add₀ two_ne_zero, ← zpow_add₀ two_ne_zero]
      congr 1
      push_cast
      omega
    rw [le_div_iff₀ hd]
    calc 2 ^ 52 * (2 : ℚ) ^ e * den ≤ 2 ^ 52 * (2 : ℚ) ^ e * (2 : ℚ) ^ (den.log2 + 1 : ℤ) := by
          gcongr
      _ ≤ (num : ℚ) := hpow.trans_le hnlow
  · have hpow : 2 ^ 54 * (2 : ℚ) ^ e * (2 : ℚ) ^ (den.log2 : ℤ) = (2 : ℚ) ^ (num.log2 + 1 : ℤ) := by
      rw [← zpow_natCast, ← zpow_add₀ two_ne_zero, ← zpow_add₀ two_ne_zero]
      congr 1
      push_cast
      omega
    rw [div_lt_iff₀ hd]
    calc (num : ℚ) < 2 ^ 54 * (2 : ℚ) ^ e * (2 : ℚ) ^ (den.log2 : ℤ) := hnhigh.trans_eq hpow.symm
      _ ≤ 2 ^ 54 * (2 : ℚ) ^ e * den := by gcongr

theorem le_floor_descale_iff {num den : ℕ} (hden : 0 < den) (n : ℕ) (e : ℤ) :
    n ≤ (descale num den e).1 / (descale num den e).2 ↔ n * (2 : ℚ) ^ e ≤ num / den := by
  obtain ⟨hpos, hratio⟩ := descale_ratio num hden e
  have hcast : (0 : ℚ) < (descale num den e).2 := by exact_mod_cast hpos
  rw [Nat.le_div_iff_mul_le hpos, ← le_div_iff₀ (by positivity : (0 : ℚ) < 2 ^ e), ← hratio,
    le_div_iff₀ hcast]
  exact_mod_cast Iff.rfl

theorem scaled_max {x : ℚ} {e : ℤ} (hlow : 2 ^ 52 * (2 : ℚ) ^ e ≤ x)
    (hhigh : x < 2 ^ 53 * (2 : ℚ) ^ e) : Scaled (x / 2 ^ max e (-1074)) (max e (-1074)) where
  least := le_max_right _ _
  high := by
    have hmono : (2 : ℚ) ^ e ≤ 2 ^ max e (-1074) := zpow_le_zpow_right₀ one_le_two (le_max_left _ _)
    rw [div_lt_iff₀ (by positivity)]
    exact hhigh.trans_le (by gcongr)
  low := by
    rcases max_choice e (-1074) with h | h
    · rw [h, le_div_iff₀ (by positivity)]
      exact Or.inr hlow
    · exact Or.inl h

theorem two_zpow_succ (e : ℤ) : (2 : ℚ) ^ (e + 1) = 2 * 2 ^ e := by
  rw [zpow_add₀ two_ne_zero, zpow_one, mul_comm]

theorem quantum_scaled {num den : ℕ} (hnum : 0 < num) (hden : 0 < den) :
    Scaled (num / den / 2 ^ quantum num den) (quantum num den) := by
  rw [quantum]
  generalize he : (num.log2 : ℤ) - den.log2 - 53 = e
  obtain ⟨hlow, hhigh⟩ := log2_ratio hnum hden he
  have htest : 1 <<< 53 ≤ (descale num den e).1 / (descale num den e).2 ↔
      2 ^ 53 * (2 : ℚ) ^ e ≤ num / den := by
    rw [le_floor_descale_iff hden, shiftLeft_cast, Nat.cast_one, one_mul]
  split
  next h =>
    apply scaled_max
    · rw [two_zpow_succ]
      exact le_of_eq_of_le (by ring) (htest.mp h)
    · rw [two_zpow_succ]
      exact hhigh.trans_eq (by ring)
  next h =>
    apply scaled_max hlow
    exact not_le.mp fun hge => h (htest.mpr hge)

namespace Scaled

variable {q : ℚ} {e : ℤ} {m : ℕ}

theorem round_bounds (h : Scaled q e) (hm : |m - q| ≤ 1 / 2) :
    m ≤ 1 <<< 53 ∧ (1 <<< 52 ≤ m ∨ e = -1074) := by
  obtain ⟨hbelow, habove⟩ := abs_le.mp hm
  have hhigh := h.high
  constructor
  · have hlt : (m : ℚ) < (2 ^ 53 + 1 : ℕ) := by
      push_cast
      linarith
    exact Nat.lt_succ_iff.mp (by exact_mod_cast hlt)
  · refine h.low.symm.imp_left fun hlow => ?_
    have hlt : ((2 ^ 52 : ℕ) : ℚ) < (m + 1 : ℕ) := by
      push_cast
      linarith
    exact Nat.lt_succ_iff.mp (by exact_mod_cast hlt)

theorem exponent_le (h : Scaled q e) (hlimit : q * 2 ^ e < limit) : e ≤ 971 := by
  by_contra htop
  have hq : 2 ^ 52 ≤ q := h.low.resolve_left (by omega)
  have hmono : (2 : ℚ) ^ (971 + 1 : ℤ) ≤ 2 ^ e := zpow_le_zpow_right₀ one_le_two (by omega)
  have hpos : (0 : ℚ) < 2 ^ (971 : ℤ) := by positivity
  have hbeyond : limit ≤ 2 ^ 52 * 2 ^ (971 + 1 : ℤ) := by
    rw [limit, two_zpow_succ]
    generalize (2 : ℚ) ^ (971 : ℤ) = t at hpos
    linarith
  exact absurd hlimit (not_lt.mpr (hbeyond.trans (by gcongr)))

/-- A carry into the next binade does not go beyond the last one. -/
theorem exponent_succ_le (h : Scaled q e) (hlimit : q * 2 ^ e < limit) (hm : |2 ^ 53 - q| ≤ 1 / 2) :
    e + 1 ≤ 971 := by
  have htop := h.exponent_le hlimit
  by_contra htop'
  have he : e = 971 := by omega
  have hbeyond : limit ≤ q * 2 ^ e := by
    rw [limit, he]
    have := (abs_le.mp hm).2
    gcongr
    linarith
  exact absurd hlimit (not_lt.mpr hbeyond)

end Scaled

/-- Rounding fails only from the limit on. Its error is half a quantum. -/
theorem exists_ofRatio? {num den : ℕ} (hnum : 0 < num) (hden : 0 < den)
    (hlimit : (num : ℚ) / den < limit) (negative : Bool) :
    ∃ d, ofRatio? negative num den = some d ∧
      |d.magnitude - num / den| ≤ (2 : ℚ) ^ quantum num den / 2 := by
  have hscaled := quantum_scaled hnum hden
  obtain ⟨hden', hratio⟩ := descale_ratio num hden (quantum num den)
  have herror := divRoundEven_error (descale num den (quantum num den)).1 hden'
  rw [hratio] at herror
  rw [ofRatio?, if_neg hnum.ne']
  dsimp only
  generalize divRoundEven _ _ = m at herror ⊢
  generalize quantum num den = e at *
  have hpos : (0 : ℚ) < 2 ^ e := by positivity
  have hx : (num : ℚ) / den = num / den / 2 ^ e * 2 ^ e := (div_mul_cancel₀ _ hpos.ne').symm
  generalize (num : ℚ) / den / 2 ^ e = q at hscaled herror hx
  rw [hx] at hlimit ⊢
  obtain ⟨hcarry, hleading⟩ := hscaled.round_bounds herror
  have hmagnitude : |m * (2 : ℚ) ^ e - q * 2 ^ e| ≤ (2 : ℚ) ^ e / 2 := by
    rw [← sub_mul, abs_mul, abs_of_pos hpos]
    calc |(m : ℚ) - q| * 2 ^ e ≤ 1 / 2 * 2 ^ e := by gcongr
      _ = 2 ^ e / 2 := by ring
  split
  next heq =>
    have hcarried : (m : ℚ) = 2 ^ 53 := by
      rw [heq, shiftLeft_cast, Nat.cast_one, one_mul]
    have hcanonical : Canonical (1 <<< 52) (e + 1) := by
      rw [hcarried] at herror
      exact ⟨by decide, by have := hscaled.least; omega,
        hscaled.exponent_succ_le hlimit herror, Or.inl (by decide)⟩
    refine ⟨⟨negative, 1 <<< 52, e + 1, hcanonical⟩, dif_pos hcanonical, ?_⟩
    have hsame : ((1 <<< 52 : ℕ) : ℚ) * 2 ^ (e + 1) = m * 2 ^ e := by
      rw [shiftLeft_cast, Nat.cast_one, one_mul, hcarried, two_zpow_succ]
      ring
    rw [magnitude, hsame]
    exact hmagnitude
  next hne =>
    have hcanonical : Canonical m e :=
      ⟨by omega, hscaled.least, hscaled.exponent_le hlimit, hleading⟩
    exact ⟨⟨negative, m, e, hcanonical⟩, dif_pos hcanonical, hmagnitude⟩

/-- The error is small against a ratio that is not tiny itself. -/
theorem exists_ofRatio?_relative {num den : ℕ} (hden : 0 < den) (hone : 1 ≤ (num : ℚ) / den)
    (hlimit : (num : ℚ) / den < limit) (negative : Bool) :
    ∃ d, ofRatio? negative num den = some d ∧
      |d.magnitude - num / den| ≤ num / den / 2 ^ 53 := by
  have hd : (0 : ℚ) < den := by exact_mod_cast hden
  have hnum : 0 < num := by
    rw [le_div_iff₀ hd, one_mul] at hone
    exact_mod_cast hd.trans_le hone
  obtain ⟨d, hround, herror⟩ := exists_ofRatio? hnum hden hlimit negative
  refine ⟨d, hround, herror.trans ?_⟩
  have hquantum : 2 ^ 52 * (2 : ℚ) ^ quantum num den ≤ num / den := by
    rcases (quantum_scaled hnum hden).low with h | h
    · rw [h, ← zpow_natCast, ← zpow_add₀ two_ne_zero]
      exact (zpow_le_one_of_nonpos₀ one_le_two (by norm_num)).trans hone
    · exact (le_div_iff₀ (by positivity)).mp h
  generalize (2 : ℚ) ^ quantum num den = t at hquantum ⊢
  linarith

theorem magnitude_nonneg (d : Double) : 0 ≤ d.magnitude := by
  rw [magnitude]
  positivity

theorem magnitude_lt (d : Double) : d.magnitude < 2 ^ 53 * (2 : ℚ) ^ (971 : ℤ) := by
  obtain ⟨hm, -, he, -⟩ := d.canonical
  have hcast : (d.mantissa : ℚ) < 2 ^ 53 := by
    rw [Nat.one_shiftLeft] at hm
    exact_mod_cast hm
  have hmono : (2 : ℚ) ^ d.exponent ≤ 2 ^ (971 : ℤ) := zpow_le_zpow_right₀ one_le_two he
  calc d.magnitude < 2 ^ 53 * (2 : ℚ) ^ d.exponent := by
        rw [magnitude]
        gcongr
    _ ≤ 2 ^ 53 * (2 : ℚ) ^ (971 : ℤ) := by gcongr

theorem exists_ofRatio?_of_lt {num den : ℕ} (hden : 0 < den) (h : (num : ℚ) / den < limit)
    (negative : Bool) : ∃ d, ofRatio? negative num den = some d := by
  rcases Nat.eq_zero_or_pos num with hzero | hnum
  · exact ⟨zero negative, by rw [ofRatio?, if_pos hzero]⟩
  · obtain ⟨d, hd, -⟩ := exists_ofRatio? hnum hden h negative
    exact ⟨d, hd⟩

theorem exists_mul? {a b : Double} (h : a.magnitude * b.magnitude < limit) :
    ∃ d, a.mul? b = some d := by
  rw [← numerator_div_denominator, ← numerator_div_denominator, div_mul_div_comm] at h
  apply exists_ofRatio?_of_lt (Nat.mul_pos a.denominator_pos b.denominator_pos)
  exact_mod_cast h

theorem exists_div? {a b : Double} (hb : 0 < b.magnitude) (h : a.magnitude / b.magnitude < limit) :
    ∃ d, a.div? b = some d := by
  rw [← numerator_div_denominator] at hb
  have hnum : 0 < b.numerator := by
    apply Nat.pos_of_ne_zero
    intro hzero
    rw [hzero, Nat.cast_zero, zero_div] at hb
    exact lt_irrefl 0 hb
  rw [← numerator_div_denominator, ← numerator_div_denominator, div_div_div_eq] at h
  apply exists_ofRatio?_of_lt (Nat.mul_pos a.denominator_pos hnum)
  exact_mod_cast h

theorem exists_ofNat? {n : ℕ} (h : (n : ℚ) < limit) :
    ∃ d, ofNat? n = some d ∧ |d.magnitude - n| ≤ n / 2 ^ 53 := by
  rcases Nat.eq_zero_or_pos n with rfl | hn
  · exact ⟨zero false, rfl, by simp [magnitude, zero]⟩
  · have hone : (1 : ℚ) ≤ n / (1 : ℕ) := by
      rw [Nat.cast_one, div_one]
      exact_mod_cast hn
    rw [← div_one (n : ℚ), ← Nat.cast_one] at h
    obtain ⟨d, hd, herror⟩ := exists_ofRatio?_relative one_pos hone h false
    rw [Nat.cast_one, div_one] at herror
    exact ⟨d, hd, herror⟩

end Reql.Double
