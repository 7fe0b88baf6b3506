import Mathlib.Data.Int.ModEq
import Mathlib.Tactic.LinearCombination
import HakunaMatata.Base.Memory
import HakunaMatata.NumberTheory.Euclid

/-!
# Which linear congruences are solved

The solutions of `a * x = c` modulo `m` are an arithmetic progression from any one of them, with
the step `m / g` for the greatest common divisor `g` of `a` and `m` (`solves_progression`). The
program computes a first solution from Euclid's algorithm, and it counts the others with the
divisor that the algorithm returns. `linear_congruence_iff` says exactly when this divisor is
positive or not needed, and the answer complete.
-/

namespace HakunaMatata.NumberTheory

open Base (ok_bind)

/-- The list has solutions only, one of each class, and none if there is none. -/
structure Solves (a c m : Int) (sols : List Int) : Prop where
  sound : ∀ x ∈ sols, a * x ≡ c [ZMOD m]
  empty : ¬ (Int.gcd a m : Int) ∣ c → sols = []
  complete : (Int.gcd a m : Int) ∣ c →
    sols.length = Int.gcd a m ∧ sols.Pairwise (fun x y => ¬ x ≡ y [ZMOD m]) ∧
      ∀ x, a * x ≡ c [ZMOD m] → ∃! s, s ∈ sols ∧ x ≡ s [ZMOD m]

section Progression

/-- The first `count` numbers from `x₀` on, at the distance `n`. -/
def progression (x₀ n : Int) (count : Nat) : List Int :=
  (List.range count).map fun k : Nat => x₀ + k * n

theorem mem_progression {x₀ n x : Int} {count : Nat} :
    x ∈ progression x₀ n count ↔ ∃ k < count, x₀ + k * n = x := by
  simp only [progression, List.mem_map, List.mem_range]

variable {a c n x₀ : Int} {g : Nat}

/-- Two numbers of the progression are congruent only if they are the same one. -/
theorem index_eq_of_modEq (hn : n ≠ 0) {i j : Nat} (hi : i < g) (hj : j < g)
    (h : x₀ + i * n ≡ x₀ + j * n [ZMOD g * n]) : i = j := by
  have hdvd : (g : Int) * n ∣ (j - i) * n := by
    have hsub := h.dvd
    rwa [show x₀ + (j : Int) * n - (x₀ + i * n) = (j - i) * n by ring] at hsub
  have hdiff : (g : Int) ∣ (j : Int) - i := Int.dvd_of_mul_dvd_mul_right hn hdvd
  have hzero : (j : Int) - i = 0 := by
    apply Int.eq_zero_of_abs_lt_dvd hdiff
    rw [abs_lt]
    constructor <;> omega
  omega

/-- A number of the class of `x₀` modulo the step is congruent to one of the progression. -/
theorem exists_mem_progression (hg : 0 < g) {x : Int} (h : x₀ ≡ x [ZMOD n]) :
    ∃ s ∈ progression x₀ n g, x ≡ s [ZMOD g * n] := by
  obtain ⟨t, ht⟩ := Int.modEq_iff_add_fac.mp h
  have hpos : (0 : Int) < g := by omega
  have hindex : ((t % g).toNat : Int) = t % g := Int.toNat_of_nonneg (Int.emod_nonneg t hpos.ne')
  refine ⟨x₀ + (t % g).toNat * n, mem_progression.mpr ⟨_, ?_, rfl⟩, ?_⟩
  · have hlt := Int.emod_lt_of_pos t hpos
    omega
  · rw [hindex]
    refine Int.modEq_iff_add_fac.mpr ⟨-(t / g), ?_⟩
    have hsplit := Int.mul_ediv_add_emod t g
    rw [ht]
    linear_combination n * hsplit

/-- If `x₀` is a solution, the progression of the greatest common divisor solves the congruence. -/
theorem solves_progression (hg : 0 < g) (hn : 0 < n) (hgcd : Int.gcd a (g * n) = g)
    (hsol : a * x₀ ≡ c [ZMOD g * n]) : Solves a c (g * n) (progression x₀ n g) := by
  obtain ⟨a', ha'⟩ : (g : Int) ∣ a := by
    have hleft := Int.gcd_dvd_left a (g * n)
    rwa [hgcd] at hleft
  have hdvd : (g : Int) ∣ c := by
    have hdiff : (g : Int) ∣ c - a * x₀ := Dvd.dvd.trans ⟨n, rfl⟩ hsol.dvd
    have hsum := Int.dvd_add hdiff (Dvd.dvd.mul_right ⟨a', ha'⟩ x₀)
    rwa [Int.sub_add_cancel] at hsum
  have hstep : ∀ x, a * x ≡ c [ZMOD g * n] → x₀ ≡ x [ZMOD n] := by
    intro x hx
    have hpos : (0 : Int) < g * n := Int.mul_pos (by omega) hn
    have hcancel := (hsol.trans hx.symm).cancel_left_div_gcd hpos
    rwa [Int.gcd_comm, hgcd, Int.mul_ediv_cancel_left n (by omega)] at hcancel
  refine ⟨?_, fun hnot => absurd (by rwa [hgcd]) hnot, fun _ => ⟨?_, ?_, ?_⟩⟩
  · intro x hx
    obtain ⟨k, _, rfl⟩ := mem_progression.mp hx
    have hshift : a * (x₀ + k * n) = a * x₀ + g * n * (a' * k) := by
      rw [ha']
      ring
    rw [hshift]
    exact Int.modEq_add_fac_self.trans hsol
  · rw [hgcd, progression, List.length_map, List.length_range]
  · refine List.pairwise_map.mpr (List.pairwise_lt_range.imp_of_mem ?_)
    intro i j hi hj hlt hmod
    have heq := index_eq_of_modEq hn.ne' (List.mem_range.mp hi) (List.mem_range.mp hj) hmod
    omega
  · intro x hx
    obtain ⟨s, hs, hmod⟩ := exists_mem_progression hg (hstep x hx)
    refine ⟨s, ⟨hs, hmod⟩, ?_⟩
    intro s' h
    obtain ⟨i, hi, rfl⟩ := mem_progression.mp h.1
    obtain ⟨j, hj, rfl⟩ := mem_progression.mp hs
    rw [index_eq_of_modEq hn.ne' hi hj (h.2.symm.trans hmod)]

end Progression

/-- The first coefficient solves the congruence for the divisor, also where it is the one of the
other symbol. -/
theorem exists_combination {a m : Int} (ha : a ≠ 0) (hm : m ≠ 0) :
    ∃ u y, euclideanLinearCombination a m = .ok ⟨some u, y, (euclid a m).g⟩ ∧
      a * u ≡ (euclid a m).g [ZMOD m] := by
  have heval := eval_lastEquation (s := a) (t := m) a m hm ⟨1, 0⟩ ⟨0, 1⟩
    (by simp [Equation.eval]) (by simp [Equation.eval])
  have hgcd := natAbs_g a m
  have hg : (euclid a m).g ≠ 0 := by
    rw [← Int.natAbs_ne_zero, hgcd]
    exact Int.gcd_ne_zero_left ha
  rw [combination_of_ne ha hm rfl]
  generalize lastEquation (euclid a m).quotients.dropLast ⟨1, 0⟩ ⟨0, 1⟩ = e at heval ⊢
  simp only [Equation.eval] at heval
  have hfirst : a * e.x ≡ (euclid a m).g [ZMOD m] := by
    refine Int.modEq_iff_add_fac.mpr ⟨e.y, ?_⟩
    linear_combination -heval
  by_cases hx : e.x = 0
  · -- the divisor is a multiple of `m`, so the congruence holds for every number
    have hy : e.y ≠ 0 := by
      intro hy
      rw [hx, hy] at heval
      omega
    have hmg : m ∣ (euclid a m).g := ⟨e.y, by rw [← heval, hx]; ring⟩
    have hma : m ∣ a := by
      have hleft := Int.gcd_dvd_left a m
      rw [← hgcd, Int.natAbs_dvd] at hleft
      exact hmg.trans hleft
    refine ⟨e.y, none, by simp [hx, hy], ?_⟩
    exact ((Int.modEq_zero_iff_dvd.mpr (hma.mul_right e.y)).trans
      (Int.modEq_zero_iff_dvd.mpr hmg).symm)
  · by_cases hy : e.y = 0
    · exact ⟨e.x, none, by simp [hx, hy], hfirst⟩
    · exact ⟨e.x, some e.y, by simp [hx, hy], hfirst⟩

/-- The divisor that Euclid's algorithm returns divides the same numbers as the greatest one. -/
theorem g_dvd_iff (a m c : Int) : (euclid a m).g ∣ c ↔ (Int.gcd a m : Int) ∣ c := by
  rw [← natAbs_g, Int.natAbs_dvd]

theorem g_pos_iff {a m : Int} (hm : 0 < m) :
    0 < (euclid a m).g ↔ 0 < a ∨ Odd (divisionSteps a.natAbs m.natAbs) := by
  rw [← Int.sign_eq_one_iff_pos, ← Int.sign_eq_one_iff_pos]
  rcases Nat.even_or_odd (divisionSteps a.natAbs m.natAbs) with heven | hodd
  · rw [(sign_g a m).1 heven, or_iff_left (Nat.not_odd_iff_even.mpr heven)]
  · rw [(sign_g a m).2 hodd, Int.sign_eq_one_of_pos hm]
    exact iff_of_true rfl (Or.inr hodd)

/-- What is computed from the first coefficient and the divisor. -/
theorem linearCongruence_eq {a m : Int} (ha : a ≠ 0) (hm : m ≠ 0) (c : Int) :
    ∃ u, a * u ≡ (euclid a m).g [ZMOD m] ∧
      linearCongruence a c m = .ok (if (euclid a m).g ∣ c then
        (List.range (euclid a m).g.toNat).map fun k : Nat =>
          intDiv (u * c) (euclid a m).g + intDiv (k * m) (euclid a m).g
        else []) := by
  obtain ⟨u, y, hcombination, hu⟩ := exists_combination ha hm
  refine ⟨u, hu, ?_⟩
  have hcheck : intDiv c (euclid a m).g * (euclid a m).g = c ↔ (euclid a m).g ∣ c :=
    ⟨Dvd.intro_left _, Int.tdiv_mul_cancel⟩
  simp only [linearCongruence, ha, hm, or_self, if_false, hcombination, ok_bind]
  by_cases hdvd : (euclid a m).g ∣ c
  · rw [if_neg (not_not.mpr (hcheck.mpr hdvd)), if_pos hdvd]
    rfl
  · rw [if_pos (mt hcheck.mp hdvd), if_neg hdvd]
    rfl

/-- The list that is computed with a positive divisor is the progression of the solutions. -/
theorem solves_of_pos {a c m u g : Int} (hm : 0 < m) (hg : 0 < g) (hgcd : g.natAbs = Int.gcd a m)
    (hdvd : g ∣ c) (hu : a * u ≡ g [ZMOD m]) :
    Solves a c m ((List.range g.toNat).map fun k : Nat => intDiv (u * c) g + intDiv (k * m) g) := by
  obtain ⟨count, rfl⟩ := Int.eq_ofNat_of_zero_le hg.le
  obtain ⟨d, rfl⟩ := hdvd
  obtain ⟨n, rfl⟩ : (count : Int) ∣ m := by
    have hright := Int.gcd_dvd_right a m
    rwa [← hgcd] at hright
  have hlist : (List.range (count : Int).toNat).map (fun k : Nat =>
      intDiv (u * (count * d)) count + intDiv (k * (count * n)) count) =
        progression (u * d) n count := by
    rw [progression, Int.toNat_natCast]
    refine List.map_congr_left fun k _ => ?_
    simp only [intDiv, Int.mul_left_comm _ (count : Int), Int.mul_tdiv_cancel_left _ hg.ne']
  rw [hlist]
  refine solves_progression (by omega) ((mul_pos_iff_of_pos_left hg).mp hm) hgcd.symm ?_
  have hmul := hu.mul_right d
  rwa [Int.mul_assoc] at hmul

/-- For a non-zero number and a modulus from 1 on, the congruence is answered, and the answer is
complete exactly if the number is positive, the congruence has no solution, or Euclid's algorithm
takes an odd number of divisions. Otherwise the divisor it ends with is negative, so that no
solution is counted. -/
theorem linear_congruence_iff (a c m : Int) (ha : a ≠ 0) (hm : 1 ≤ m) :
    ∃ sols, linearCongruence a c m = .ok sols ∧
      (Solves a c m sols ↔
        0 < a ∨ ¬ (Int.gcd a m : Int) ∣ c ∨ Odd (divisionSteps a.natAbs m.natAbs)) := by
  obtain ⟨u, hu, hrun⟩ := linearCongruence_eq ha (show m ≠ 0 by omega) c
  refine ⟨_, hrun, ?_⟩
  have hgcd := natAbs_g a m
  by_cases hdvd : (Int.gcd a m : Int) ∣ c
  · rw [if_pos ((g_dvd_iff a m c).mpr hdvd), or_iff_right_of_imp (fun h => absurd hdvd h),
      ← g_pos_iff (show 0 < m by omega)]
    constructor
    · intro hsolves
      have hlength := (hsolves.complete hdvd).1
      have hpos : 0 < Int.gcd a m := Int.gcd_pos_of_ne_zero_left m ha
      rw [List.length_map, List.length_range] at hlength
      omega
    · intro hpos
      exact solves_of_pos (by omega) hpos hgcd ((g_dvd_iff a m c).mpr hdvd) hu
  · rw [if_neg (mt (g_dvd_iff a m c).mp hdvd)]
    refine iff_of_true ⟨?_, fun _ => rfl, fun h => absurd h hdvd⟩ (Or.inr (Or.inl hdvd))
    intro x hx
    exact absurd hx List.not_mem_nil

/-- The congruence `4 * x = 2` modulo 6 is solved. -/
theorem linear_congruence_iff_six :
    (4 : Int) ≠ 0 ∧ (1 : Int) ≤ 6 ∧ ∃ sols, linearCongruence 4 2 6 = .ok sols ∧
      Solves 4 2 6 sols := by
  obtain ⟨sols, hrun, hsolves⟩ := linear_congruence_iff 4 2 6 (by decide) (by decide)
  exact ⟨by decide, by decide, sols, hrun, hsolves.mpr (Or.inl (by decide))⟩

/-- The congruence `-2 * x = 4` modulo 6 has two solutions, and none is returned. -/
theorem linear_congruence_lost :
    linearCongruence (-2) 4 6 = .ok [] ∧ ¬ Solves (-2) 4 6 [] ∧ (-2) * 1 ≡ 4 [ZMOD 6] := by
  refine ⟨?_, ?_, by decide⟩
  · have hcombination : euclideanLinearCombination (-2) 6 = .ok ⟨some 1, none, -2⟩ := by
      simp [euclideanLinearCombination, euclid, intDiv, asDict, lastEquation, readCoefficients,
        Equation.subMul]
    rw [linearCongruence, hcombination]
    rfl
  · intro h
    have hlength := (h.complete (by decide)).1
    exact absurd hlength (by decide)

end HakunaMatata.NumberTheory
