import Mathlib.Algebra.Group.Nat.Even
import Mathlib.Data.Nat.Log
import Mathlib.Tactic.Ring
import HakunaMatata.NumberTheory.Model

/-!
# What Euclid's algorithm with truncated quotients computes

The loop ends with the greatest common divisor up to its sign (`natAbs_g`), and the last equation
is one for it (`eval_lastEquation`). Two divisions halve the second number, so the number of
divisions is bounded by a logarithm (`divisionSteps_le`). A remainder has the sign of the number
that was divided, so the signs of the remainders alternate between those of the arguments. `sign_g`
says which of the two the result has: it depends on the number of divisions alone.
-/

namespace HakunaMatata.NumberTheory

/-- The number of divisions of Euclid's algorithm on natural numbers. -/
def divisionSteps (x y : Nat) : Nat :=
  if y = 0 then 0 else divisionSteps y (x % y) + 1
termination_by y
decreasing_by exact Nat.mod_lt _ (by omega)

theorem euclid_zero (a : Int) : euclid a 0 = ⟨[], a⟩ := by
  rw [euclid, if_pos rfl]

theorem euclid_of_ne {a b : Int} (hb : b ≠ 0) :
    euclid a b = ⟨intDiv a b :: (euclid b (a.tmod b)).quotients, (euclid b (a.tmod b)).g⟩ := by
  rw [euclid, if_neg hb]
  simp only [sub_intDiv_mul]

theorem euclid_induction {motive : Int → Int → Prop} (zero : ∀ a, motive a 0)
    (step : ∀ a b, b ≠ 0 → motive b (a.tmod b) → motive a b) (a b : Int) : motive a b := by
  induction hn : b.natAbs using Nat.strong_induction_on generalizing a b with
  | _ n ih =>
    subst hn
    by_cases hb : b = 0
    · subst hb
      exact zero a
    · refine step a b hb (ih _ ?_ b (a.tmod b) rfl)
      rw [Int.natAbs_tmod]
      exact Nat.mod_lt _ (by omega)

/-- The loop ends with the greatest common divisor, up to its sign. -/
theorem natAbs_g (a b : Int) : (euclid a b).g.natAbs = Int.gcd a b := by
  induction a, b using euclid_induction with
  | zero a => rw [euclid_zero, Int.gcd_zero_right]
  | step a b hb ih =>
    rw [euclid_of_ne hb, ih, Int.gcd_def, Int.gcd_def, Int.natAbs_tmod, Nat.gcd_comm,
      ← Nat.gcd_rec, Nat.gcd_comm]

/-- A remainder other than 0 has the sign of the number that was divided. -/
theorem sign_tmod {a b : Int} (h : a.tmod b ≠ 0) : (a.tmod b).sign = a.sign := by
  rcases Int.lt_trichotomy a 0 with hneg | hzero | hpos
  · have hle : a.tmod b ≤ 0 := by
      have hflip := Int.tmod_nonneg b (show 0 ≤ -a by omega)
      rw [Int.neg_tmod] at hflip
      omega
    rw [Int.sign_eq_neg_one_of_neg hneg, Int.sign_eq_neg_one_of_neg (by omega)]
  · rw [hzero, Int.zero_tmod] at h
    exact absurd rfl h
  · have hge := Int.tmod_nonneg b (Int.le_of_lt hpos)
    rw [Int.sign_eq_one_of_pos hpos, Int.sign_eq_one_of_pos (by omega)]

/-- The result has the sign of the first argument after an even number of divisions, and of the
second one after an odd number. -/
theorem sign_g (a b : Int) :
    (Even (divisionSteps a.natAbs b.natAbs) → (euclid a b).g.sign = a.sign) ∧
      (Odd (divisionSteps a.natAbs b.natAbs) → (euclid a b).g.sign = b.sign) := by
  induction a, b using euclid_induction with
  | zero a =>
    rw [euclid_zero, Int.natAbs_zero, divisionSteps, if_pos rfl]
    exact ⟨fun _ => rfl, fun h => by simp at h⟩
  | step a b hb ih =>
    rw [euclid_of_ne hb, divisionSteps, if_neg (Int.natAbs_ne_zero.mpr hb), ← Int.natAbs_tmod]
    refine ⟨fun heven => ?_, fun hodd => ih.1 ?_⟩
    · have hrest : Odd (divisionSteps b.natAbs (a.tmod b).natAbs) := by
        rwa [Nat.even_add_one, Nat.not_even_iff_odd] at heven
      have hne : a.tmod b ≠ 0 := by
        intro hzero
        rw [hzero, Int.natAbs_zero, divisionSteps, if_pos rfl] at hrest
        simp at hrest
      exact (ih.2 hrest).trans (sign_tmod hne)
    · rwa [Nat.odd_add_one, Nat.not_odd_iff_even] at hodd

/-- A remainder of a remainder is less than half of the number that was divided by it. -/
theorem two_mul_mod_mod_lt {x y : Nat} (hy : 0 < y) (hr : 0 < x % y) : 2 * (y % (x % y)) < y := by
  have hrem := Nat.mod_lt y hr
  have hlt := Nat.mod_lt x hy
  have hquot : 1 ≤ y / (x % y) := (Nat.one_le_div_iff hr).mpr hlt.le
  have hsplit := Nat.div_add_mod y (x % y)
  have hmul : x % y * 1 ≤ x % y * (y / (x % y)) := Nat.mul_le_mul_left _ hquot
  omega

theorem divisionSteps_zero (x : Nat) : divisionSteps x 0 = 0 := by
  rw [divisionSteps, if_pos rfl]

theorem divisionSteps_of_pos (x : Nat) {y : Nat} (hy : 0 < y) :
    divisionSteps x y = divisionSteps y (x % y) + 1 := by
  rw [divisionSteps, if_neg hy.ne']

/-- Two divisions halve the second number. -/
theorem divisionSteps_le_log (x : Nat) {y : Nat} (hy : 0 < y) :
    divisionSteps x y ≤ 2 * Nat.log 2 y + 1 := by
  induction y using Nat.strong_induction_on generalizing x with
  | _ y ih =>
    rw [divisionSteps_of_pos x hy]
    rcases Nat.eq_zero_or_pos (x % y) with hr | hr
    · rw [hr, divisionSteps_zero]
      omega
    · have hlt := Nat.mod_lt x hy
      have hlog : 1 ≤ Nat.log 2 y := Nat.log_pos Nat.one_lt_two (by omega)
      rw [divisionSteps_of_pos y hr]
      rcases Nat.eq_zero_or_pos (y % (x % y)) with hr' | hr'
      · rw [hr', divisionSteps_zero]
        omega
      · have hhalf := two_mul_mod_mod_lt hy hr
        have hrest := ih (y % (x % y)) (by omega) (x % y) hr'
        have hmono : Nat.log 2 (y % (x % y)) ≤ Nat.log 2 (y / 2) :=
          Nat.log_mono_right (by omega)
        rw [Nat.log_div_base] at hmono
        omega

/-- The first division swaps the numbers if the first one is the smaller one. -/
theorem divisionSteps_le (x y : Nat) (hx : 0 < x) (hy : 0 < y) :
    divisionSteps x y ≤ 2 * Nat.log 2 (min x y) + 2 := by
  rcases Nat.lt_or_ge x y with hlt | hge
  · rw [divisionSteps_of_pos x hy, Nat.mod_eq_of_lt hlt, Nat.min_eq_left hlt.le]
    have hrest := divisionSteps_le_log y hx
    omega
  · rw [Nat.min_eq_right hge]
    have hall := divisionSteps_le_log x hy
    omega

/-- The loop of `euclidean_gcd` ends with the same number as the one that records the quotients,
after one iteration for each division. -/
theorem euclideanGcdLoop_eq (a b : Int) (limit : Nat)
    (h : divisionSteps a.natAbs b.natAbs ≤ limit) :
    euclideanGcdLoop limit a b = some (euclid a b).g := by
  induction limit generalizing a b with
  | zero =>
    have hb : b = 0 := by
      by_contra hb
      rw [divisionSteps_of_pos _ (Int.natAbs_pos.mpr hb)] at h
      omega
    rw [hb, euclid_zero, euclideanGcdLoop, if_neg (not_not.mpr rfl)]
  | succ limit ih =>
    by_cases hb : b = 0
    · rw [hb, euclid_zero, euclideanGcdLoop, if_neg (not_not.mpr rfl)]
    · rw [divisionSteps_of_pos _ (Int.natAbs_pos.mpr hb), ← Int.natAbs_tmod] at h
      rw [euclideanGcdLoop, if_pos hb, euclid_of_ne hb]
      simp only [sub_intDiv_mul]
      exact ih b (a.tmod b) (by omega)

theorem g_pos {a b : Int} (ha : 0 < a) (hb : 0 < b) : 0 < (euclid a b).g := by
  rw [← Int.sign_eq_one_iff_pos]
  rcases Nat.even_or_odd (divisionSteps a.natAbs b.natAbs) with heven | hodd
  · rw [(sign_g a b).1 heven, Int.sign_eq_one_of_pos ha]
  · rw [(sign_g a b).2 hodd, Int.sign_eq_one_of_pos hb]

/-- For all integers, `euclidean_gcd` returns the greatest common divisor up to its sign. If both
are not 0, the loop takes at most twice the logarithm of the smaller one, rounded down, and two
iterations more; otherwise it is not reached. The divisor of two positive numbers is positive. -/
theorem euclideanGcd_returns (a b : Int) :
    ∃ g, g.natAbs = Int.gcd a b ∧ (0 < a → 0 < b → 0 < g) ∧
      ∀ limit, (a ≠ 0 → b ≠ 0 → 2 * Nat.log 2 (min a.natAbs b.natAbs) + 2 ≤ limit) →
        euclideanGcd limit a b = some g := by
  by_cases ha : a = 0
  · refine ⟨b, by rw [ha, Int.gcd_zero_left], fun hpos => absurd ha hpos.ne', fun limit _ => ?_⟩
    by_cases hb : b = 0
    · simp [euclideanGcd, ha, hb]
    · simp [euclideanGcd, ha, hb]
  · by_cases hb : b = 0
    · refine ⟨a, by rw [hb, Int.gcd_zero_right], fun hpos _ => hpos, fun limit _ => ?_⟩
      simp [euclideanGcd, ha, hb]
    · refine ⟨(euclid a b).g, natAbs_g a b, g_pos, fun limit hlimit => ?_⟩
      have hsteps := divisionSteps_le a.natAbs b.natAbs (Int.natAbs_pos.mpr ha)
        (Int.natAbs_pos.mpr hb)
      simp only [euclideanGcd, ha, hb, false_and, and_false, if_false]
      exact euclideanGcdLoop_eq a b limit (hsteps.trans (hlimit ha hb))

example : euclideanGcd 4 (-3) 5 = some (-1) := by decide

/-- The value of an equation. -/
def Equation.eval (e : Equation) (a b : Int) : Int :=
  e.x * a + e.y * b

theorem eval_subMul (e₀ e₁ : Equation) (q a b : Int) :
    (e₀.subMul q e₁).eval a b = e₀.eval a b - q * e₁.eval a b := by
  simp only [Equation.eval, Equation.subMul]
  ring

/-- If the two newest equations are equations for the numbers in the loop, the last equation is one
for its result. -/
theorem eval_lastEquation {s t : Int} (a b : Int) (hb : b ≠ 0) (e₀ e₁ : Equation)
    (h₀ : e₀.eval s t = a) (h₁ : e₁.eval s t = b) :
    (lastEquation (euclid a b).quotients.dropLast e₀ e₁).eval s t = (euclid a b).g := by
  induction a, b using euclid_induction generalizing e₀ e₁ with
  | zero a => exact absurd rfl hb
  | step a b hb ih =>
    rw [euclid_of_ne hb]
    by_cases hr : a.tmod b = 0
    · simpa [hr, euclid_zero, lastEquation] using h₁
    · have hnew : (e₀.subMul (intDiv a b) e₁).eval s t = a.tmod b := by
        rw [eval_subMul, h₀, h₁, sub_intDiv_mul]
      have hquotients : (euclid b (a.tmod b)).quotients ≠ [] := by
        rw [euclid_of_ne hr]
        exact List.cons_ne_nil _ _
      rw [List.dropLast_cons_of_ne_nil hquotients]
      exact ih hr e₁ _ h₁ hnew

/-- For two numbers other than 0, what is read off the last equation: the coefficient of the only
symbol that occurs is taken for the first one. -/
theorem combination_of_ne {a b : Int} (ha : a ≠ 0) (hb : b ≠ 0) {e : Equation}
    (he : lastEquation (euclid a b).quotients.dropLast ⟨1, 0⟩ ⟨0, 1⟩ = e) :
    euclideanLinearCombination a b =
      if e.x ≠ 0 ∧ e.y ≠ 0 then .ok ⟨some e.x, some e.y, (euclid a b).g⟩
      else if e.x ≠ 0 then .ok ⟨some e.x, none, (euclid a b).g⟩
      else if e.y ≠ 0 then .ok ⟨some e.y, none, (euclid a b).g⟩
      else .error .generatorsNeeded := by
  rw [euclideanLinearCombination, if_neg (fun h => ha h.1), if_neg ha, if_neg hb]
  dsimp only
  rw [he, asDict]
  split_ifs <;> rfl

end HakunaMatata.NumberTheory
