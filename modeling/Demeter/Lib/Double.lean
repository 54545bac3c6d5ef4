import Mathlib.Data.Int.Log
import Mathlib.Data.Rat.Floor
import Mathlib.Tactic

/-!
# Rounding to double precision

The value of an operation on doubles is the exact value, rounded to 53 significant bits and to even
in the middle between two such numbers.  Overflow and underflow are left out.

* `round` is the rounding, and `abs_round_sub_le` bounds its error.
-/

namespace Double

/-- The nearest integer, the even one of two. -/
def roundEven (x : ℚ) : ℤ :=
  if x - ⌊x⌋ < 1 / 2 then ⌊x⌋
  else if 1 / 2 < x - ⌊x⌋ then ⌊x⌋ + 1
  else ⌊x⌋ + ⌊x⌋ % 2

/-- The unit in the last place. -/
def ulp (x : ℚ) : ℚ := 2 ^ (Int.log 2 |x| - 52)

/-- The nearest number with 53 bits, to even in the middle. -/
def round (x : ℚ) : ℚ := roundEven (x / ulp x) * ulp x

theorem abs_roundEven_sub_le (x : ℚ) : |(roundEven x : ℚ) - x| ≤ 1 / 2 := by
  have hlo := Int.floor_le x
  have hhi := Int.lt_floor_add_one x
  have hmod : ⌊x⌋ % 2 = 0 ∨ ⌊x⌋ % 2 = 1 := Int.emod_two_eq_zero_or_one ⌊x⌋
  rw [roundEven, abs_le]
  split_ifs with hdown hup
  · constructor <;> linarith
  · push_cast
    constructor <;> linarith
  · obtain hmod | hmod := hmod <;> rw [hmod] <;> push_cast <;> constructor <;> linarith

theorem ulp_pos (x : ℚ) : 0 < ulp x := zpow_pos two_pos _

theorem ulp_le (x : ℚ) (hx : x ≠ 0) : ulp x ≤ |x| / 2 ^ 52 := by
  have hlog : (2 : ℚ) ^ Int.log 2 |x| ≤ |x| := Int.zpow_log_le_self one_lt_two (abs_pos.2 hx)
  rw [ulp, zpow_sub₀ two_ne_zero]
  exact div_le_div_of_nonneg_right hlog (by norm_num)

/-- The relative error of the rounding. -/
theorem abs_round_sub_le (x : ℚ) : |round x - x| ≤ |x| / 2 ^ 53 := by
  by_cases hx : x = 0
  · simp [hx, round, roundEven]
  · have hpos := ulp_pos x
    have hulp := ulp_le x hx
    have heq : round x - x = (roundEven (x / ulp x) - x / ulp x) * ulp x := by
      rw [round, sub_mul, div_mul_cancel₀ x hpos.ne']
    rw [heq, abs_mul, abs_of_pos hpos]
    calc |(roundEven (x / ulp x) : ℚ) - x / ulp x| * ulp x
        ≤ 1 / 2 * (|x| / 2 ^ 52) :=
          mul_le_mul (abs_roundEven_sub_le _) hulp hpos.le (by norm_num)
      _ = |x| / 2 ^ 53 := by ring

end Double
