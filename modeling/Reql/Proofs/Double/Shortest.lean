import Mathlib.Tactic.IntervalCases
import Reql.Double.Shortest
import Reql.Proofs.Double.Rounding

/-! The shortest digits of a double lie where they round back to it. -/
namespace Reql.Double

variable {d : Double} {k : ℤ}

def Digits.value (s : Digits) : ℚ :=
  s.coefficient * (10 : ℚ) ^ s.exponent

/-- A quarter of the last binary digit, on the scale on which a grid is searched. -/
def quarter (d : Double) (k : ℤ) : ℕ :=
  10 ^ (-k).toNat <<< (d.exponent - 2).toNat

/-- The distance of two grid points on the same scale. -/
def spacing (d : Double) (k : ℤ) : ℕ :=
  10 ^ k.toNat <<< (2 - d.exponent).toNat

theorem quarter_pos (d : Double) (k : ℤ) : 0 < d.quarter k := by
  rw [quarter, Nat.shiftLeft_eq]
  positivity

theorem quarter_cast (d : Double) (k : ℤ) : (d.quarter k : ℚ) =
    (2 : ℚ) ^ (d.exponent - 2) * (10 ^ (-k).toNat * 2 ^ (2 - d.exponent).toNat) := by
  have htwo := pow_toNat two_ne_zero (d.exponent - 2)
  rw [neg_sub] at htwo
  rw [quarter, shiftLeft_cast, Nat.cast_pow, Nat.cast_ofNat, htwo]
  ring

theorem spacing_cast (d : Double) (k : ℤ) : (d.spacing k : ℚ) =
    (10 : ℚ) ^ k * (10 ^ (-k).toNat * 2 ^ (2 - d.exponent).toNat) := by
  have hten := pow_toNat (by norm_num : (10 : ℚ) ≠ 0) k
  rw [spacing, shiftLeft_cast, Nat.cast_pow, Nat.cast_ofNat, hten]
  ring

theorem spacing_le_iff {n y : ℕ} : n * d.spacing k ≤ y * d.quarter k ↔
    (n : ℚ) * (10 : ℚ) ^ k ≤ y * (2 : ℚ) ^ (d.exponent - 2) := by
  have hpos : (0 : ℚ) < 10 ^ (-k).toNat * 2 ^ (2 - d.exponent).toNat := by positivity
  rw [← mul_le_mul_iff_of_pos_right hpos, mul_assoc, mul_assoc, ← spacing_cast, ← quarter_cast]
  exact_mod_cast Iff.rfl

theorem quarter_le_iff {n y : ℕ} : y * d.quarter k ≤ n * d.spacing k ↔
    y * (2 : ℚ) ^ (d.exponent - 2) ≤ (n : ℚ) * (10 : ℚ) ^ k := by
  have hpos : (0 : ℚ) < 10 ^ (-k).toNat * 2 ^ (2 - d.exponent).toNat := by positivity
  rw [← mul_le_mul_iff_of_pos_right hpos, mul_assoc, mul_assoc, ← spacing_cast, ← quarter_cast]
  exact_mod_cast Iff.rfl

/-- The grid point next below the double. -/
def below (d : Double) (k : ℤ) : ℕ :=
  4 * d.mantissa * d.quarter k / d.spacing k

/-- What a search on one grid finds, by the grid point next below the double. -/
theorem onGrid?_cases (d : Double) (k : ℤ) :
    (d.onGrid? k = some (d.below k) ∧
        d.lowerBound * d.quarter k ≤ d.below k * d.spacing k) ∨
      (d.onGrid? k = some (d.below k + 1) ∧
        (d.below k + 1) * d.spacing k ≤ d.upperBound * d.quarter k) ∨
      (d.onGrid? k = none ∧ d.below k * d.spacing k ≤ d.lowerBound * d.quarter k ∧
        d.upperBound * d.quarter k ≤ (d.below k + 1) * d.spacing k) := by
  have ha : Nat.pow 10 (-k).toNat <<< (d.exponent - 2).toNat = d.quarter k := rfl
  have hb : Nat.pow 10 k.toNat <<< (2 - d.exponent).toNat = d.spacing k := rfl
  have ht : 4 * d.mantissa * d.quarter k / d.spacing k = d.below k := rfl
  simp only [onGrid?, ha, hb, ht]
  split_ifs with hbelow habove hnear hfar habove
  · exact Or.inl ⟨rfl, by omega⟩
  · exact Or.inr (Or.inl ⟨rfl, by omega⟩)
  · rcases Nat.mod_two_eq_zero_or_one (d.below k) with htie | htie
    · rw [htie]
      exact Or.inl ⟨rfl, by omega⟩
    · rw [htie]
      exact Or.inr (Or.inl ⟨rfl, by omega⟩)
  · exact Or.inl ⟨rfl, by omega⟩
  · exact Or.inr (Or.inl ⟨rfl, by omega⟩)
  · exact Or.inr (Or.inr ⟨rfl, by omega, by omega⟩)

/-- A hit lies between the bounds inside which numbers round to the double. -/
theorem onGrid?_bounds {c : ℕ} (h : d.onGrid? k = some c) :
    d.lowerBound * d.quarter k ≤ c * d.spacing k ∧
      c * d.spacing k ≤ d.upperBound * d.quarter k := by
  have hb : 0 < d.spacing k := by
    rw [spacing, Nat.shiftLeft_eq]
    positivity
  have hlower : d.lowerBound * d.quarter k ≤ 4 * d.mantissa * d.quarter k := by
    apply Nat.mul_le_mul_right
    rw [lowerBound]
    split <;> omega
  have hupper : 4 * d.mantissa * d.quarter k ≤ d.upperBound * d.quarter k := by
    apply Nat.mul_le_mul_right
    rw [upperBound]
    omega
  have hbelow : d.below k * d.spacing k ≤ 4 * d.mantissa * d.quarter k := Nat.div_mul_le_self _ _
  have habove : 4 * d.mantissa * d.quarter k < (d.below k + 1) * d.spacing k := by
    rw [Nat.mul_comm (d.below k + 1)]
    exact Nat.lt_mul_div_succ _ hb
  rcases onGrid?_cases d k with ⟨hsome, hreaches⟩ | ⟨hsome, hreaches⟩ | ⟨hnone, -⟩
  · rw [hsome, Option.some.injEq] at h
    rw [← h]
    exact ⟨hreaches, hbelow.trans hupper⟩
  · rw [hsome, Option.some.injEq] at h
    rw [← h]
    exact ⟨hlower.trans habove.le, hreaches⟩
  · rw [hnone] at h
    cases h

/-- Every grid that is fine enough has a hit. -/
theorem onGrid?_isSome (hm : d.mantissa ≠ 0) (h : (10 : ℚ) ^ k ≤ (2 : ℚ) ^ (d.exponent - 1)) :
    (d.onGrid? k).isSome := by
  have hfine : 1 * d.spacing k ≤ 2 * d.quarter k := by
    rw [spacing_le_iff, Nat.cast_one, one_mul]
    refine h.trans_eq ?_
    have hexponent : d.exponent - 1 = 1 + (d.exponent - 2) := by ring
    rw [hexponent, zpow_add₀ two_ne_zero, zpow_one, Nat.cast_ofNat]
  have hgap : d.lowerBound + 3 ≤ d.upperBound := by
    rw [lowerBound, upperBound]
    split <;> omega
  have ha := d.quarter_pos k
  rcases onGrid?_cases d k with ⟨hsome, -⟩ | ⟨hsome, -⟩ | ⟨-, hbelow, habove⟩
  · exact Option.isSome_of_eq_some hsome
  · exact Option.isSome_of_eq_some hsome
  · have hwide := Nat.mul_le_mul_right (d.quarter k) hgap
    rw [Nat.add_mul] at hwide habove
    omega

theorem searchGrid_hit {steps i : ℕ} (hi : i < steps) (h : (d.onGrid? (k - i)).isSome) :
    d.onGrid? (d.searchGrid steps k).exponent = some (d.searchGrid steps k).coefficient := by
  induction steps generalizing k i with
  | zero => omega
  | succ steps ih =>
    cases hk : d.onGrid? k with
    | some c => simp only [searchGrid, hk]
    | none =>
      have hpos : i ≠ 0 := by
        intro hzero
        rw [hzero, Nat.cast_zero, Int.sub_zero, hk] at h
        cases h
      have hrest : k - i = k - 1 - (i - 1 : ℕ) := by omega
      rw [hrest] at h
      simp only [searchGrid, hk]
      exact ih (by omega) h

/-- Powers of ten against powers of two, by `10 ^ 3 ≤ 2 ^ 10` and `2 ^ 93 ≤ 10 ^ 28`. -/
theorem ten_zpow_le {j : ℤ} (h : if 0 ≤ k then 10 * k ≤ 3 * j else 93 * k ≤ 28 * j) :
    (10 : ℚ) ^ k ≤ (2 : ℚ) ^ j := by
  split at h
  next hk =>
    lift k to ℕ using hk
    lift j to ℕ using by omega
    rw [zpow_natCast, zpow_natCast,
      ← pow_le_pow_iff_left₀ (by positivity) (by positivity) three_ne_zero]
    calc ((10 : ℚ) ^ k) ^ 3 = (10 ^ 3) ^ k := pow_right_comm _ _ _
      _ ≤ (2 ^ 10) ^ k := by gcongr; norm_num
      _ = 2 ^ (10 * k) := (pow_mul _ _ _).symm
      _ ≤ 2 ^ (3 * j) := pow_le_pow_right₀ one_le_two (by omega)
      _ = (2 ^ j) ^ 3 := by rw [mul_comm, pow_mul]
  next hk =>
    obtain ⟨n, hn⟩ : ∃ n : ℕ, k = -n := ⟨(-k).toNat, by omega⟩
    have hroot : (2 : ℚ) ^ (-j) ≤ 10 ^ n := by
      rw [← pow_le_pow_iff_left₀ (by positivity) (by positivity) (by norm_num : 28 ≠ 0)]
      calc ((2 : ℚ) ^ (-j)) ^ 28 = 2 ^ (-j * 28) := (zpow_mul _ _ 28).symm
        _ ≤ 2 ^ ((93 * n : ℕ) : ℤ) := zpow_le_zpow_right₀ one_le_two (by omega)
        _ = (2 ^ 93) ^ n := by rw [zpow_natCast, pow_mul]
        _ ≤ (10 ^ 28) ^ n := by gcongr; norm_num
        _ = (10 ^ n) ^ 28 := pow_right_comm _ _ _
    rw [hn, zpow_neg, zpow_natCast, inv_le_comm₀ (by positivity) (by positivity), ← zpow_neg]
    exact hroot

theorem onGrid?_shortest (h : d.isZero = false) :
    d.onGrid? d.shortest.exponent = some d.shortest.coefficient := by
  have hm : d.mantissa ≠ 0 := beq_eq_false_iff_ne.mp h
  obtain ⟨hsmall, hleast, hgreatest, -⟩ := d.canonical
  have hlog : d.mantissa.log2 < 53 := (Nat.log2_lt hm).mpr (by omega)
  rw [shortest]
  -- The last of the 24 grids is fine enough at every exponent.
  apply searchGrid_hit (i := 23) (by decide)
  apply onGrid?_isSome hm
  apply ten_zpow_le
  split <;> split <;> omega

theorem shortest_bounds (h : d.isZero = false) :
    d.lowerBound * (2 : ℚ) ^ (d.exponent - 2) ≤ d.shortest.value ∧
      d.shortest.value ≤ d.upperBound * (2 : ℚ) ^ (d.exponent - 2) := by
  obtain ⟨hlower, hupper⟩ := onGrid?_bounds (onGrid?_shortest h)
  exact ⟨quarter_le_iff.mp hlower, spacing_le_iff.mp hupper⟩

theorem shortest_coefficient_ne_zero (h : d.isZero = false) : d.shortest.coefficient ≠ 0 := by
  have hm : d.mantissa ≠ 0 := beq_eq_false_iff_ne.mp h
  obtain ⟨hlower, -⟩ := onGrid?_bounds (onGrid?_shortest h)
  have hpos : 0 < d.lowerBound := by
    rw [lowerBound]
    split <;> omega
  intro hzero
  rw [hzero, Nat.zero_mul] at hlower
  exact absurd hlower (Nat.not_le.mpr (Nat.mul_pos hpos (d.quarter_pos _)))

end Reql.Double
