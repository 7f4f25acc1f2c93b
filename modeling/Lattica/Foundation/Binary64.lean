import Mathlib.Data.Int.Log
import Mathlib.Data.Rat.Floor
import Mathlib.Tactic.Linarith
import Mathlib.Tactic.NormNum
import Mathlib.Tactic.Positivity

/-!
# Rounding to 53 bits

`f64` arithmetic on numbers of ordinary size: the exact result of an operation,
rounded to the nearest number with 53 significant bits, ties to even. Exponents
are not bounded, so neither overflow nor subnormal numbers are modelled. Small
integers are exact, and what is rounded is off by at most one part in `2 ^ 53`.
-/

namespace Lattica.Foundation.Binary64

/-- The nearest integer, of two the even one. -/
def roundEven (x : ℚ) : ℤ :=
  if x - ⌊x⌋ < 1 / 2 then ⌊x⌋
  else if x - ⌊x⌋ = 1 / 2 ∧ ⌊x⌋ % 2 = 0 then ⌊x⌋
  else ⌊x⌋ + 1

/-- The distance of the numbers with 53 bits around `x`. -/
def ulp (x : ℚ) : ℚ := 2 ^ (Int.log 2 |x| - 52)

def round (x : ℚ) : ℚ := roundEven (x / ulp x) * ulp x

/-- The relative error of one rounding. -/
def unit : ℚ := 1 / 2 ^ 53

theorem abs_roundEven_sub_le (x : ℚ) : |(roundEven x : ℚ) - x| ≤ 1 / 2 := by
  have hfloor := Int.floor_le x
  have hlt := Int.lt_floor_add_one x
  rw [abs_le]
  unfold roundEven
  split
  · next hlow =>
      constructor
      · linarith
      · linarith
  · next hhigh =>
      split
      · next htie =>
          constructor
          · linarith [htie.1]
          · linarith
      · push_cast
        constructor
        · linarith
        · linarith

theorem roundEven_intCast (z : ℤ) : roundEven z = z := by
  unfold roundEven
  rw [Int.floor_intCast, sub_self, if_pos (by norm_num)]

/-- An integer less than half away is the nearest one. -/
theorem roundEven_eq {x : ℚ} {z : ℤ} (h : |x - z| < 1 / 2) : roundEven x = z := by
  have hnear := abs_le.mp (abs_roundEven_sub_le x)
  have hz := abs_lt.mp h
  have hlow : ((z - 1 : ℤ) : ℚ) < roundEven x := by
    push_cast
    linarith [hnear.1]
  have hhigh : (roundEven x : ℚ) < (z + 1 : ℤ) := by
    push_cast
    linarith [hnear.2]
  have hlow := Int.cast_lt.mp hlow
  have hhigh := Int.cast_lt.mp hhigh
  omega

theorem ulp_pos (x : ℚ) : 0 < ulp x := zpow_pos (by norm_num) _

theorem ulp_le {x : ℚ} (hx : x ≠ 0) : ulp x ≤ 2 * unit * |x| := by
  have hlog : (2 : ℚ) ^ Int.log 2 |x| ≤ |x| := by
    exact_mod_cast Int.zpow_log_le_self (by decide) (abs_pos.mpr hx)
  have hsplit : ulp x = 2 ^ Int.log 2 |x| * (2 * unit) := by
    rw [ulp, unit, zpow_sub₀ (by norm_num)]
    norm_num
    ring
  rw [hsplit, mul_comm]
  exact mul_le_mul_of_nonneg_left hlog (by norm_num [unit])

/-- One rounding is off by at most one part in `2 ^ 53`. -/
theorem abs_round_sub_le (x : ℚ) : |round x - x| ≤ unit * |x| := by
  by_cases hx : x = 0
  · have hzero : round 0 = 0 := by
      rw [round, zero_div]
      have h := roundEven_intCast 0
      rw [Int.cast_zero] at h
      rw [h, Int.cast_zero, zero_mul]
    rw [hx, hzero, sub_self, abs_zero, mul_zero]
  · have hpos := ulp_pos x
    have hdiff : round x - x = (roundEven (x / ulp x) - x / ulp x) * ulp x := by
      rw [round, sub_mul, div_mul_cancel₀ _ hpos.ne']
    rw [hdiff, abs_mul, abs_of_pos hpos]
    calc |(roundEven (x / ulp x) : ℚ) - x / ulp x| * ulp x
        ≤ 1 / 2 * ulp x := mul_le_mul_of_nonneg_right (abs_roundEven_sub_le _) hpos.le
      _ ≤ 1 / 2 * (2 * unit * |x|) := mul_le_mul_of_nonneg_left (ulp_le hx) (by norm_num)
      _ = unit * |x| := by ring

theorem round_bounds {x : ℚ} (hx : 0 ≤ x) :
    x * (1 - unit) ≤ round x ∧ round x ≤ x * (1 + unit) := by
  have h := abs_le.mp (abs_round_sub_le x)
  rw [abs_of_nonneg hx] at h
  constructor
  · linarith [h.1]
  · linarith [h.2]

theorem round_nonneg {x : ℚ} (hx : 0 ≤ x) : 0 ≤ round x :=
  (mul_nonneg hx (by norm_num [unit])).trans (round_bounds hx).1

/-- Small integers are not rounded. -/
theorem round_natCast {n : ℕ} (h : n < 2 ^ 53) : round n = n := by
  rcases Nat.eq_zero_or_pos n with rfl | hpos
  · have hle := abs_round_sub_le 0
    rw [abs_zero, mul_zero, sub_zero] at hle
    simpa using abs_nonpos_iff.mp hle
  · have hcast : (0 : ℚ) < n := by exact_mod_cast hpos
    have hlog : Int.log 2 |(n : ℚ)| < 53 := by
      rw [abs_of_pos hcast, ← Int.lt_zpow_iff_log_lt (by decide) hcast]
      exact_mod_cast h
    -- the unit in the last place divides every integer
    obtain ⟨k, hk⟩ := Int.eq_ofNat_of_zero_le (show 0 ≤ 52 - Int.log 2 |(n : ℚ)| by omega)
    have hulp : ulp n = (2 ^ k : ℚ)⁻¹ := by
      rw [ulp, show Int.log 2 |(n : ℚ)| - 52 = -(k : ℤ) by omega, zpow_neg, zpow_natCast]
    have hint : (n : ℚ) / ulp n = ((n * 2 ^ k : ℤ) : ℚ) := by
      rw [hulp, div_inv_eq_mul]
      push_cast
      ring
    rw [round, hint, roundEven_intCast, ← hint, div_mul_cancel₀ _ (ulp_pos _).ne']

/-- What is less than half a unit below 1 is rounded to 1. -/
theorem round_eq_one {x : ℚ} (hlow : 1 - unit / 2 < x) (hhigh : x ≤ 1) : round x = 1 := by
  rcases hhigh.eq_or_lt with rfl | hlt
  · exact_mod_cast round_natCast (n := 1) (by norm_num)
  · have hhalf : (1 / 2 : ℚ) ≤ x := by
      rw [unit] at hlow
      norm_num at hlow ⊢
      linarith
    have hpos : 0 < x := by linarith
    have hlog : Int.log 2 |x| = -1 := by
      rw [abs_of_pos hpos]
      apply le_antisymm
      · apply Int.le_of_lt_add_one
        rw [← Int.lt_zpow_iff_log_lt (by decide) hpos]
        simpa using hlt
      · rw [← Int.zpow_le_iff_le_log (by decide) hpos]
        norm_num
        linarith
    have hulp : ulp x = unit := by
      rw [ulp, hlog, unit]
      norm_num
    have hnear : |x / unit - (2 ^ 53 : ℤ)| < 1 / 2 := by
      rw [unit] at hlow ⊢
      rw [abs_lt]
      push_cast
      constructor
      · linarith
      · linarith
    rw [round, hulp, roundEven_eq hnear, unit]
    norm_num

end Lattica.Foundation.Binary64
