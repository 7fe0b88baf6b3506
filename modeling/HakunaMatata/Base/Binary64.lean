import Mathlib.Algebra.Order.Floor.Ring
import Mathlib.Data.Int.Log
import Mathlib.Data.Rat.Floor
import Mathlib.Tactic.FieldSimp
import Mathlib.Tactic.Linarith
import Mathlib.Tactic.NormNum
import Mathlib.Tactic.Positivity

/-!
# Rounding to a double

`binary64` rounds a rational number to the nearest one with 53 significant bits, and to the even
one of two that are equally near. The range of the exponents is left out, so it is only meant for
numbers that are neither tiny nor huge. Whole numbers below `2 ^ 53` are not changed
(`binary64_natCast`), and a quotient of such numbers keeps its integer part
(`floor_binary64_div`).
-/

namespace HakunaMatata.Base

/-- The nearest integer, and the even one of two. -/
def roundEven (q : ℚ) : ℤ :=
  if q - ⌊q⌋ < 1 / 2 then ⌊q⌋
  else if 1 / 2 < q - ⌊q⌋ then ⌊q⌋ + 1
  else if ⌊q⌋ % 2 = 0 then ⌊q⌋
  else ⌊q⌋ + 1

/-- The unit in the last place of the doubles around a number. -/
def ulp (q : ℚ) : ℚ :=
  2 ^ (Int.log 2 |q| - 52)

/-- The nearest double. -/
def binary64 (q : ℚ) : ℚ :=
  if q = 0 then 0 else roundEven (q / ulp q) * ulp q

theorem roundEven_intCast (n : ℤ) : roundEven n = n := by
  simp [roundEven]

theorem abs_roundEven_sub_le (q : ℚ) : |(roundEven q : ℚ) - q| ≤ 1 / 2 := by
  have hlow := Int.floor_le q
  have hhigh := Int.lt_floor_add_one q
  unfold roundEven
  rw [abs_le]
  split
  · constructor
    · linarith
    · linarith
  · split
    · push_cast
      constructor
      · linarith
      · linarith
    · split
      · constructor
        · linarith
        · linarith
      · push_cast
        constructor
        · linarith
        · linarith

theorem ulp_pos (q : ℚ) : 0 < ulp q := by
  exact zpow_pos (by norm_num) _

/-- The unit in the last place is at most the `2 ^ 52`th part of a number. -/
theorem ulp_le {q : ℚ} (hq : 0 < q) : ulp q ≤ q / 2 ^ 52 := by
  have hlog : ((2 : ℕ) : ℚ) ^ Int.log 2 q ≤ q := Int.zpow_log_le_self (by decide) hq
  have hsplit : ulp q = (2 : ℚ) ^ Int.log 2 q / 2 ^ 52 := by
    rw [ulp, abs_of_pos hq, zpow_sub₀ (by norm_num)]
    norm_num
  rw [hsplit]
  gcongr
  exact_mod_cast hlog

/-- Rounding changes a number by at most its `2 ^ 53`th part. -/
theorem abs_binary64_sub_le {q : ℚ} (hq : 0 < q) : |binary64 q - q| ≤ q / 2 ^ 53 := by
  have hulp := ulp_pos q
  have hround := abs_roundEven_sub_le (q / ulp q)
  have hscale : binary64 q - q = (roundEven (q / ulp q) - q / ulp q) * ulp q := by
    rw [binary64, if_neg (ne_of_gt hq)]
    field_simp
  rw [hscale, abs_mul, abs_of_pos hulp]
  calc |(roundEven (q / ulp q) : ℚ) - q / ulp q| * ulp q ≤ 1 / 2 * (q / 2 ^ 52) := by
        gcongr
        exact ulp_le hq
    _ = q / 2 ^ 53 := by ring

/-- A whole number below `2 ^ 53` is a double. -/
theorem binary64_natCast {n : ℕ} (hn : n < 2 ^ 53) : binary64 n = n := by
  by_cases hzero : n = 0
  · subst hzero
    simp [binary64]
  · have hlog : Nat.log 2 n ≤ 52 := Nat.le_of_lt_succ (Nat.log_lt_of_lt_pow hzero hn)
    have hulp : ulp n = 1 / 2 ^ (52 - Nat.log 2 n) := by
      have hexp : Int.log 2 |(n : ℚ)| - 52 = -((52 - Nat.log 2 n : ℕ) : ℤ) := by
        rw [abs_of_nonneg (Nat.cast_nonneg n), Int.log_natCast]
        omega
      rw [ulp, hexp, zpow_neg, zpow_natCast, one_div]
    have hscaled : (n : ℚ) / ulp n = ((n * 2 ^ (52 - Nat.log 2 n) : ℤ) : ℚ) := by
      rw [hulp]
      push_cast
      field_simp
    rw [binary64, if_neg (by exact_mod_cast hzero), hscaled, roundEven_intCast, ← hscaled]
    exact div_mul_cancel₀ _ (ne_of_gt (ulp_pos _))

/-- The integer part of a quotient is not changed by rounding. -/
theorem floor_binary64_div {n d : ℕ} (hn : n < 2 ^ 53) (hd : 0 < d) :
    ⌊binary64 (n / d)⌋ = (n / d : ℕ) := by
  have hdpos : (0 : ℚ) < d := by exact_mod_cast hd
  have hdiv : (n : ℚ) / d = (n / d : ℕ) + (n % d : ℕ) / d := by
    have hcast : (n : ℚ) = d * (n / d : ℕ) + (n % d : ℕ) := by
      exact_mod_cast (Nat.div_add_mod n d).symm
    rw [hcast]
    field_simp
  by_cases hrest : n % d = 0
  · have hexact : (n : ℚ) / d = (n / d : ℕ) := by
      rw [hdiv, hrest]
      simp
    have hsmall : n / d < 2 ^ 53 := Nat.lt_of_le_of_lt (Nat.div_le_self n d) hn
    rw [hexact, binary64_natCast hsmall, Int.floor_natCast]
  · -- the quotient is at least the `d`th part of one away from the integers around it
    have hpos : 0 < n := Nat.pos_of_ne_zero fun hzero => hrest (by rw [hzero, Nat.zero_mod])
    have hquotient : (0 : ℚ) < n / d := by positivity
    have herror : (n : ℚ) / d / 2 ^ 53 < 1 / d := by
      have hfraction : (n : ℚ) / 2 ^ 53 < 1 := by
        rw [div_lt_one (by norm_num)]
        exact_mod_cast hn
      rw [div_right_comm]
      gcongr
    have hlow : (1 : ℚ) / d ≤ (n % d : ℕ) / d := by
      gcongr
      exact_mod_cast Nat.pos_of_ne_zero hrest
    have hhigh : ((n % d : ℕ) : ℚ) / d + 1 / d ≤ 1 := by
      rw [← add_div, div_le_one hdpos]
      exact_mod_cast Nat.mod_lt n hd
    have hbounds := abs_le.mp (abs_binary64_sub_le hquotient)
    rw [Int.floor_eq_iff, Int.cast_natCast]
    constructor
    · linarith [hbounds.1]
    · linarith [hbounds.2]

end HakunaMatata.Base
