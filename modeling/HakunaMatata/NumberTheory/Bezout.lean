import HakunaMatata.NumberTheory.Euclid

/-!
# When the coefficients of a linear combination are returned

The equation for the divisor is right for all numbers. Its coefficients are read by the position of
a symbol among those that occur, so both are returned exactly if both symbols occur. One of them is
missing if one number divides the other (`lastEquation_of_dvd`, `lastEquation_of_dvd_left`), and
only then, since otherwise one number alone would be a multiple of a divisor it does not divide
(`bezout_iff`).
-/

namespace HakunaMatata.NumberTheory

/-- What is returned are two coefficients and the greatest common divisor, up to its sign, as the
combination with them. -/
def IsBezout (a b : Int) (result : Except PyError Combination) : Prop :=
  ∃ x y g, result = .ok ⟨some x, some y, g⟩ ∧ a * x + b * y = g ∧ g.natAbs = Int.gcd a b

/-- If the second number divides the first one, the equation is the second symbol. -/
theorem lastEquation_of_dvd {a b : Int} (hb : b ≠ 0) (h : b ∣ a) (e₀ e₁ : Equation) :
    lastEquation (euclid a b).quotients.dropLast e₀ e₁ = e₁ := by
  rw [euclid_of_ne hb, Int.tmod_eq_zero_of_dvd h, euclid_zero]
  rfl

/-- If the first number divides the second one and not the other way round, the equation is the
first symbol: the first quotient is 0. -/
theorem lastEquation_of_dvd_left {a b : Int} (ha : a ≠ 0) (hb : b ≠ 0) (h : a ∣ b)
    (hnot : ¬ b ∣ a) (e₀ e₁ : Equation) :
    lastEquation (euclid a b).quotients.dropLast e₀ e₁ = e₀ := by
  have hlt : a.natAbs < b.natAbs := by
    have hle := Nat.le_of_dvd (Int.natAbs_pos.mpr hb) (Int.natAbs_dvd_natAbs.mpr h)
    have hne : a.natAbs ≠ b.natAbs := by
      intro heq
      exact hnot (Int.natAbs_dvd_natAbs.mp (dvd_of_eq heq.symm))
    omega
  have hquot : intDiv a b = 0 := by
    rw [intDiv, ← Int.natAbs_eq_zero, Int.natAbs_tdiv]
    exact Nat.div_eq_of_lt hlt
  have hrem : a.tmod b = a := by
    rw [← sub_intDiv_mul, hquot, Int.zero_mul, Int.sub_zero]
  have hnonempty : (euclid b a).quotients ≠ [] := by
    rw [euclid_of_ne ha]
    exact List.cons_ne_nil _ _
  rw [euclid_of_ne hb, hrem, List.dropLast_cons_of_ne_nil hnonempty, lastEquation,
    lastEquation_of_dvd ha h, hquot]
  simp only [Equation.subMul, Int.zero_mul, Int.sub_zero]

/-- For two numbers other than 0, the coefficients are the ones of the last equation if both are
not 0. -/
theorem isBezout_iff_coefficients {a b : Int} (ha : a ≠ 0) (hb : b ≠ 0) {e : Equation}
    (he : lastEquation (euclid a b).quotients.dropLast ⟨1, 0⟩ ⟨0, 1⟩ = e) :
    IsBezout a b (euclideanLinearCombination a b) ↔ e.x ≠ 0 ∧ e.y ≠ 0 := by
  have heval : e.x * a + e.y * b = (euclid a b).g := by
    rw [← he]
    exact eval_lastEquation (s := a) (t := b) a b hb ⟨1, 0⟩ ⟨0, 1⟩ (by simp [Equation.eval])
      (by simp [Equation.eval])
  rw [combination_of_ne ha hb he]
  constructor
  · rintro ⟨x, y, g, hrun, _, _⟩
    by_contra hnot
    rw [if_neg hnot] at hrun
    split_ifs at hrun <;> simp at hrun
  · intro hboth
    refine ⟨e.x, e.y, (euclid a b).g, if_pos hboth, ?_, natAbs_g a b⟩
    rw [← heval]
    ring

/-- For all integers, the coefficients and the divisor are returned exactly if one of the numbers
is 0 or neither divides the other. -/
theorem bezout_iff (a b : Int) :
    IsBezout a b (euclideanLinearCombination a b) ↔ a = 0 ∨ b = 0 ∨ (¬ a ∣ b ∧ ¬ b ∣ a) := by
  by_cases ha : a = 0
  · refine iff_of_true ?_ (Or.inl ha)
    by_cases hb : b = 0
    · exact ⟨0, 0, 0, by simp [euclideanLinearCombination, ha, hb], by simp, by simp [ha, hb]⟩
    · exact ⟨0, 1, b, by simp [euclideanLinearCombination, ha, hb], by simp, by simp [ha]⟩
  by_cases hb : b = 0
  · exact iff_of_true ⟨1, 0, a, by simp [euclideanLinearCombination, ha, hb], by simp, by simp [hb]⟩
      (Or.inr (Or.inl hb))
  rw [isBezout_iff_coefficients ha hb rfl, or_iff_right ha, or_iff_right hb]
  constructor
  · rintro ⟨hx, hy⟩
    have hba : ¬ b ∣ a := by
      intro h
      rw [lastEquation_of_dvd hb h] at hx
      exact hx rfl
    refine ⟨fun h => ?_, hba⟩
    rw [lastEquation_of_dvd_left ha hb h hba] at hy
    exact hy rfl
  · rintro ⟨hab, hba⟩
    have heval := eval_lastEquation (s := a) (t := b) a b hb ⟨1, 0⟩ ⟨0, 1⟩
      (by simp [Equation.eval]) (by simp [Equation.eval])
    have hleft : (euclid a b).g ∣ a := by
      rw [← Int.natAbs_dvd, natAbs_g]
      exact Int.gcd_dvd_left a b
    have hright : (euclid a b).g ∣ b := by
      rw [← Int.natAbs_dvd, natAbs_g]
      exact Int.gcd_dvd_right a b
    simp only [Equation.eval] at heval
    constructor
    · intro hx
      rw [hx, Int.zero_mul, Int.zero_add] at heval
      exact hba ((Dvd.intro_left _ heval).trans hleft)
    · intro hy
      rw [hy, Int.zero_mul, Int.add_zero] at heval
      exact hab ((Dvd.intro_left _ heval).trans hright)

/-- For 2 and 1 the second coefficient is missing, and the first one is the one of the second
number. -/
theorem bezout_lost :
    euclideanLinearCombination 2 1 = .ok ⟨some 1, none, 1⟩ ∧
      ¬ IsBezout 2 1 (euclideanLinearCombination 2 1) := by
  have hrun : euclideanLinearCombination 2 1 = .ok ⟨some 1, none, 1⟩ := by
    simp [euclideanLinearCombination, euclid, intDiv, asDict, lastEquation, readCoefficients]
  refine ⟨hrun, ?_⟩
  rintro ⟨x, y, g, hok, _, _⟩
  rw [hrun] at hok
  simp at hok

end HakunaMatata.NumberTheory
