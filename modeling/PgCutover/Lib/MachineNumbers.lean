import Mathlib.Data.Int.Log
import Mathlib.Data.Rat.Floor
import Mathlib.Tactic.Positivity

/-!
# Numbers of fixed width

Signed 64-bit integers, and rational numbers rounded to binary64.
-/

namespace PgCutover.Lib

/-!
## Signed 64-bit arithmetic

Sums and differences of 64-bit integers are taken in `ℤ` and brought back into the range
of the type.
-/

/-- The value of an integer in signed 64-bit arithmetic. -/
def int64 (x : ℤ) : ℤ := x.bmod (2 ^ 64)

theorem int64_of_fits {x : ℤ} (hlo : -2 ^ 63 ≤ x) (hhi : x < 2 ^ 63) : int64 x = x := by
  exact Int.bmod_eq_of_le_mul_two (by push_cast; omega) (by push_cast; omega)

theorem int64_int64_add (x y : ℤ) : int64 (int64 x + y) = int64 (x + y) :=
  Int.bmod_add_bmod

/-!
## Rounding to binary64

Non-negative rational numbers rounded to 53 significant bits, to nearest with ties to even.
-/

/-- The nearest integer, the even one of two. -/
def roundEven (x : ℚ) : ℤ :=
  if x - ⌊x⌋ < 1 / 2 then ⌊x⌋
  else if 1 / 2 < x - ⌊x⌋ then ⌊x⌋ + 1
  else if ⌊x⌋ % 2 = 0 then ⌊x⌋
  else ⌊x⌋ + 1

theorem floor_le_roundEven (x : ℚ) : ⌊x⌋ ≤ roundEven x := by
  rw [roundEven]
  split_ifs <;> omega

theorem roundEven_le_floor_add_one (x : ℚ) : roundEven x ≤ ⌊x⌋ + 1 := by
  rw [roundEven]
  split_ifs <;> omega

theorem roundEven_intCast (n : ℤ) : roundEven n = n := by
  rw [roundEven, Int.floor_intCast, sub_self, if_pos (by norm_num)]

theorem roundEven_mono {x y : ℚ} (h : x ≤ y) : roundEven x ≤ roundEven y := by
  rcases (Int.floor_mono h).lt_or_eq with hlt | heq
  · have := floor_le_roundEven y
    have := roundEven_le_floor_add_one x
    omega
  · rw [roundEven, roundEven, heq]
    -- both numbers lie between the same two integers
    split_ifs <;> first | omega | (exfalso; linarith)

/-- The distance of the numbers of the format around `x`. -/
def ulp (x : ℚ) : ℚ := 2 ^ (Int.log 2 x - 52)

/-- The nearest number of the format. -/
def binary64 (x : ℚ) : ℚ := if x ≤ 0 then 0 else roundEven (x / ulp x) * ulp x

theorem ulp_pos (x : ℚ) : 0 < ulp x := zpow_pos (by norm_num) _

/-- The powers of two around `x`, in units of the last place. -/
theorem mul_ulp (x : ℚ) (k : ℕ) : 2 ^ k * ulp x = 2 ^ (Int.log 2 x + (k - 52)) := by
  rw [ulp, ← zpow_natCast, ← zpow_add₀ (by norm_num)]
  congr 1
  omega

section Bounds

variable {x y : ℚ}

theorem binary64_of_pos (hx : 0 < x) : binary64 x = roundEven (x / ulp x) * ulp x := by
  rw [binary64, if_neg (not_le.2 hx)]

/-- Rounding does not go below the power of two under the number. -/
theorem zpow_log_le_binary64 (hx : 0 < x) : 2 ^ Int.log 2 x ≤ binary64 x := by
  have hpow : (2 : ℚ) ^ Int.log 2 x = 2 ^ 52 * ulp x := by
    rw [mul_ulp]
    norm_num
  have hle : ((2 ^ 52 : ℤ) : ℚ) ≤ x / ulp x := by
    rw [le_div_iff₀ (ulp_pos x), Int.cast_pow, Int.cast_ofNat, ← hpow]
    exact_mod_cast Int.zpow_log_le_self (by norm_num) hx
  have hround : ((2 ^ 52 : ℤ) : ℚ) ≤ roundEven (x / ulp x) := by
    have := roundEven_mono hle
    rw [roundEven_intCast] at this
    exact_mod_cast this
  rw [binary64_of_pos hx, hpow]
  exact mul_le_mul_of_nonneg_right hround (ulp_pos x).le

/-- Rounding does not go above the next power of two. -/
theorem binary64_le_zpow_log (hx : 0 < x) : binary64 x ≤ 2 ^ (Int.log 2 x + 1) := by
  have hpow : (2 : ℚ) ^ (Int.log 2 x + 1) = 2 ^ 53 * ulp x := by
    rw [mul_ulp]
    norm_num
  have hle : x / ulp x ≤ ((2 ^ 53 : ℤ) : ℚ) := by
    rw [div_le_iff₀ (ulp_pos x), Int.cast_pow, Int.cast_ofNat, ← hpow]
    exact_mod_cast (Int.lt_zpow_succ_log_self (by norm_num) x).le
  have hround : (roundEven (x / ulp x) : ℚ) ≤ ((2 ^ 53 : ℤ) : ℚ) := by
    have := roundEven_mono hle
    rw [roundEven_intCast] at this
    exact_mod_cast this
  rw [binary64_of_pos hx, hpow]
  exact mul_le_mul_of_nonneg_right hround (ulp_pos x).le

theorem binary64_nonneg (x : ℚ) : 0 ≤ binary64 x := by
  rcases le_or_gt x 0 with hx | hx
  · rw [binary64, if_pos hx]
  · exact le_trans (zpow_pos (by norm_num) _).le (zpow_log_le_binary64 hx)

/-- Rounding is monotone. -/
theorem binary64_mono (h : x ≤ y) : binary64 x ≤ binary64 y := by
  rcases le_or_gt x 0 with hx | hx
  · rw [binary64, if_pos hx]
    exact binary64_nonneg y
  · have hy := lt_of_lt_of_le hx h
    rcases (Int.log_mono_right (b := 2) hx h).lt_or_eq with hlt | heq
    · calc
        binary64 x ≤ 2 ^ (Int.log 2 x + 1) := binary64_le_zpow_log hx
        _ ≤ 2 ^ Int.log 2 y := zpow_le_zpow_right₀ (by norm_num) hlt
        _ ≤ binary64 y := zpow_log_le_binary64 hy
    · have hulp : ulp x = ulp y := by rw [ulp, ulp, heq]
      rw [binary64_of_pos hx, binary64_of_pos hy, hulp]
      refine mul_le_mul_of_nonneg_right ?_ (ulp_pos y).le
      exact_mod_cast roundEven_mono (div_le_div_of_nonneg_right h (ulp_pos y).le)

end Bounds

end PgCutover.Lib
