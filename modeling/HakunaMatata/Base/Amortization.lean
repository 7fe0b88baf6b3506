import Mathlib.Algebra.Order.Field.Basic
import Mathlib.Order.Monotone.Basic
import Mathlib.Tactic.FieldSimp
import Mathlib.Tactic.Linarith
import Mathlib.Tactic.Positivity
import Mathlib.Tactic.Ring

/-!
# Repaying a debt in periods

There are two classical ways to repay a debt in `n` periods: to pay the same part of the debt in
every period (`equalPrincipal`), or the same amount, interest included (`annuityBalance`). Both are
given by the debt that is left after each period. `Amortizes debt n balance` says that the debt
left falls, from `debt` to zero after `n` periods, and both do so.
-/

namespace HakunaMatata.Base

section Balance

variable {K : Type*} [Field K]

/-- The debt left after `i` periods in which the same part of it is paid. -/
def equalPrincipal (debt : K) (n i : ℕ) : K :=
  debt - i * (debt / n)

theorem equalPrincipal_succ (debt : K) (n i : ℕ) :
    equalPrincipal debt n (i + 1) = equalPrincipal debt n i - debt / n := by
  unfold equalPrincipal
  push_cast
  ring

/-- The payment per period that repays a debt with interest in `n` periods. -/
def annuityPayment (debt rate : K) (n : ℕ) : K :=
  debt * (rate * (1 + rate) ^ n) / ((1 + rate) ^ n - 1)

/-- The debt left after `i` of these payments. -/
def annuityBalance (debt rate : K) (n i : ℕ) : K :=
  debt * ((1 + rate) ^ n - (1 + rate) ^ i) / ((1 + rate) ^ n - 1)

theorem annuityBalance_succ {debt rate : K} {n : ℕ} (hne : (1 + rate) ^ n - 1 ≠ 0) (i : ℕ) :
    annuityBalance debt rate n (i + 1) =
      annuityBalance debt rate n i * (1 + rate) - annuityPayment debt rate n := by
  unfold annuityBalance annuityPayment
  field_simp
  ring

end Balance

variable {K : Type*} [Field K] [LinearOrder K] {debt rate : K} {n i : ℕ} {balance : ℕ → K}

/-- The debt left falls, from the whole debt to zero after `n` periods. -/
structure Amortizes (debt : K) (n : ℕ) (balance : ℕ → K) : Prop where
  start : balance 0 = debt
  paid : balance n = 0
  falls : Antitone balance

theorem Amortizes.nonneg (h : Amortizes debt n balance) (hi : i ≤ n) : 0 ≤ balance i :=
  h.paid.ge.trans (h.falls hi)

variable [IsStrictOrderedRing K]

theorem amortizes_equalPrincipal (hdebt : 0 ≤ debt) (hn : 0 < n) :
    Amortizes debt n (equalPrincipal debt n) where
  start := by simp [equalPrincipal]
  paid := by
    have hne : (n : K) ≠ 0 := Nat.cast_ne_zero.mpr hn.ne'
    rw [equalPrincipal, mul_div_cancel₀ _ hne, sub_self]
  falls := antitone_nat_of_succ_le fun i => by
    have hpart : 0 ≤ debt / n := by positivity
    rw [equalPrincipal_succ]
    linarith

theorem annuity_growth_pos (hrate : 0 < rate) (hn : 0 < n) : 0 < (1 + rate) ^ n - 1 := by
  have hgrowth : 1 < (1 + rate) ^ n := one_lt_pow₀ (by linarith) hn.ne'
  linarith

theorem amortizes_annuity (hdebt : 0 ≤ debt) (hrate : 0 < rate) (hn : 0 < n) :
    Amortizes debt n (annuityBalance debt rate n) where
  start := by
    rw [annuityBalance, pow_zero, mul_div_assoc, div_self (annuity_growth_pos hrate hn).ne',
      mul_one]
  paid := by rw [annuityBalance, sub_self, mul_zero, zero_div]
  falls := antitone_nat_of_succ_le fun i => by
    have hgrowth := annuity_growth_pos hrate hn
    have hpow : (1 + rate) ^ i ≤ (1 + rate) ^ (i + 1) :=
      pow_le_pow_right₀ (by linarith) (Nat.le_succ i)
    unfold annuityBalance
    gcongr

end HakunaMatata.Base
