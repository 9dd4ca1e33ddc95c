/-
  Andri.Lib.Binary64

  Rounding to the doubles of IEEE 754: the nearest number of 53 binary digits, the one with
  an even last digit of two, and below `2 ^ (-1022)` the nearest multiple of
  `2 ^ (-1074)`.  It moves a number by at most `2 ^ (-53)` of itself or `2 ^ (-1075)`, and
  leaves the whole numbers below `2 ^ 53` where they are.

  Signs and overflow are left out: the numbers are not negative and below `2 ^ 1024`.
-/
import Andri.Lib.Decimal
import Mathlib.Algebra.Order.Field.Power
import Mathlib.Data.Int.Log

namespace Andri.Lib

/-- The exponent of the last of 53 binary digits. -/
def lastPlace (q : ℚ) : ℤ := max (Int.log 2 q - 52) (-1074)

/-- The double nearest to a number that is not negative. -/
def binary64 (q : ℚ) : ℚ := roundEven (q / 2 ^ lastPlace q) * 2 ^ lastPlace q

section Round

variable {q : ℚ} {e : ℤ}

theorem binary64_nonneg (q : ℚ) : 0 ≤ binary64 q := by
  unfold binary64
  positivity

@[simp] theorem binary64_zero : binary64 0 = 0 := by
  have hround : roundEven 0 = 0 := by exact_mod_cast roundEven_natCast 0
  rw [binary64, zero_div, hround, Nat.cast_zero, zero_mul]

/-- The exponent of a number with its first digit in a known place. -/
theorem lastPlace_eq (he : -1074 ≤ e) (hlow : 2 ^ (e + 52) ≤ q) (hhigh : q < 2 ^ (e + 53)) :
    lastPlace q = e := by
  have hpos : 0 < q := lt_of_lt_of_le (by positivity) hlow
  have hle : e + 52 ≤ Int.log 2 q :=
    (Int.zpow_le_iff_le_log Nat.one_lt_two hpos).mp (by exact_mod_cast hlow)
  have hlt : Int.log 2 q < e + 53 :=
    (Int.lt_zpow_iff_log_lt Nat.one_lt_two hpos).mp (by exact_mod_cast hhigh)
  unfold lastPlace
  omega

/-- The last place is no further than a part in `2 ^ 52`, or than `2 ^ (-1074)`. -/
theorem zpow_lastPlace_le (h : 0 < q) : (2 : ℚ) ^ lastPlace q ≤ q / 2 ^ 52 + 2 ^ (-1074 : ℤ) := by
  have hfirst : (2 : ℚ) ^ Int.log 2 q ≤ q := by
    exact_mod_cast Int.zpow_log_le_self Nat.one_lt_two h
  rcases max_choice (Int.log 2 q - 52) (-1074) with hmax | hmax
  · have hscaled : (2 : ℚ) ^ (Int.log 2 q - 52) ≤ q / 2 ^ 52 := by
      rw [zpow_sub₀ two_ne_zero]
      exact div_le_div_of_nonneg_right hfirst (by positivity)
    rw [lastPlace, hmax]
    exact hscaled.trans (le_add_of_nonneg_right (by positivity))
  · rw [lastPlace, hmax]
    exact le_add_of_nonneg_left (by positivity)

/-- How far a number is moved. -/
theorem abs_binary64_sub_le (h : 0 ≤ q) : |binary64 q - q| ≤ q / 2 ^ 53 + 2 ^ (-1075 : ℤ) := by
  rcases h.eq_or_lt with rfl | hpos
  · simp
  have hplace : (0 : ℚ) < 2 ^ lastPlace q := by positivity
  have hround := abs_roundEven_sub_le (div_nonneg h hplace.le)
  have hdiff : binary64 q - q =
      ((roundEven (q / 2 ^ lastPlace q) : ℚ) - q / 2 ^ lastPlace q) * 2 ^ lastPlace q := by
    rw [binary64, sub_mul, div_mul_cancel₀ _ hplace.ne']
  calc |binary64 q - q|
      = |(roundEven (q / 2 ^ lastPlace q) : ℚ) - q / 2 ^ lastPlace q| * 2 ^ lastPlace q := by
        rw [hdiff, abs_mul, abs_of_pos hplace]
    _ ≤ 1 / 2 * 2 ^ lastPlace q := mul_le_mul_of_nonneg_right hround hplace.le
    _ ≤ 1 / 2 * (q / 2 ^ 52 + 2 ^ (-1074 : ℤ)) :=
        mul_le_mul_of_nonneg_left (zpow_lastPlace_le hpos) (by norm_num)
    _ = q / 2 ^ 53 + 2 ^ (-1075 : ℤ) := by
        have hhalf : (2 : ℚ) ^ (-1074 : ℤ) = 2 ^ (-1075 : ℤ) * 2 :=
          zpow_add_one₀ two_ne_zero (-1075)
        rw [hhalf]
        ring

/-- What is not below the least double does not vanish. -/
theorem binary64_pos (h : 2 ^ (-1074 : ℤ) ≤ q) : 0 < binary64 q := by
  have hpos : 0 < q := lt_of_lt_of_le (by positivity) h
  have hplace : (0 : ℚ) < 2 ^ lastPlace q := by positivity
  have hfirst : (2 : ℚ) ^ Int.log 2 q ≤ q := by
    exact_mod_cast Int.zpow_log_le_self Nat.one_lt_two hpos
  have hle : (2 : ℚ) ^ lastPlace q ≤ q := by
    rcases max_choice (Int.log 2 q - 52) (-1074) with hmax | hmax
    · rw [lastPlace, hmax]
      exact (zpow_le_zpow_right₀ one_le_two (by omega)).trans hfirst
    · rwa [lastPlace, hmax]
  -- it is at least one last place, which does not round to none
  have hone : 1 ≤ q / 2 ^ lastPlace q := (one_le_div hplace).mpr hle
  have hround := (abs_le.mp (abs_roundEven_sub_le (zero_le_one.trans hone))).1
  have hdigits : (0 : ℚ) < roundEven (q / 2 ^ lastPlace q) := by linarith
  exact mul_pos hdigits hplace

/-- A whole number below `2 ^ 53` is a double. -/
theorem binary64_natCast {n : ℕ} (h : n < 2 ^ 53) : binary64 n = n := by
  rcases Nat.eq_zero_or_pos n with rfl | hpos
  · simp
  have hcast : (0 : ℚ) < n := Nat.cast_pos.mpr hpos
  have hlog : Int.log 2 (n : ℚ) < 53 := by
    rw [← Int.lt_zpow_iff_log_lt Nat.one_lt_two hcast]
    exact_mod_cast h
  -- its last place is that of the units or one after the point
  obtain ⟨k, hk⟩ : ∃ k : ℕ, lastPlace n = -k := ⟨(-lastPlace n).toNat, by unfold lastPlace; omega⟩
  have hscaled : (n : ℚ) / 2 ^ lastPlace n = ((n * 2 ^ k : ℕ) : ℚ) := by
    rw [hk, zpow_neg, div_inv_eq_mul, zpow_natCast]
    push_cast
    rfl
  rw [binary64, hscaled, roundEven_natCast, ← hscaled, div_mul_cancel₀ _ (by positivity)]

end Round

end Andri.Lib
