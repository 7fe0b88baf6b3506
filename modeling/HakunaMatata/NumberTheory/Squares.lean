import Mathlib.Data.Nat.Log
import HakunaMatata.NumberTheory.Model

/-!
# The search for a square root

The loop answers whether a number of its interval has the square `n`, and an iteration leaves at
most half of the interval. So an interval of less than `2 ^ limit` numbers is searched in `limit`
iterations (`isSquareLoop_answers`).
-/

namespace HakunaMatata.NumberTheory

theorem square_le_square {x y : Int} (hx : 0 < x) (h : x ≤ y) : x * x ≤ y * y :=
  Int.mul_le_mul h h hx.le (hx.le.trans h)

/-- A number of the interval whose square is `n`. -/
def HasRoot (n low high : Int) : Prop :=
  ∃ k, low ≤ k ∧ k ≤ high ∧ k * k = n

variable {n low high mid : Int}

theorem hasRoot_below (hmid : 0 < mid) (hle : mid ≤ high) (h : n < mid * mid) :
    HasRoot n low (mid - 1) ↔ HasRoot n low high := by
  constructor
  · rintro ⟨k, hlow, hhigh, hk⟩
    exact ⟨k, hlow, by omega, hk⟩
  · rintro ⟨k, hlow, _, hk⟩
    refine ⟨k, hlow, ?_, hk⟩
    by_contra hge
    have hsquare := square_le_square hmid (show mid ≤ k by omega)
    omega

theorem hasRoot_above (hlow : 0 < low) (hle : low ≤ mid) (h : mid * mid < n) :
    HasRoot n (mid + 1) high ↔ HasRoot n low high := by
  constructor
  · rintro ⟨k, hk₁, hhigh, hk⟩
    exact ⟨k, by omega, hhigh, hk⟩
  · rintro ⟨k, hk₁, hhigh, hk⟩
    refine ⟨k, ?_, hhigh, hk⟩
    by_contra hlt
    have hsquare := square_le_square (show 0 < k by omega) (show k ≤ mid by omega)
    omega

/-- The loop answers for the whole interval. -/
theorem isSquareLoop_answers (limit : Nat) (hlow : 0 < low) (h : high + 1 - low < 2 ^ limit) :
    ∃ answer, isSquareLoop n limit low high = some answer ∧
      (answer = true ↔ HasRoot n low high) := by
  have hempty : ¬ low ≤ high → ¬ HasRoot n low high := by
    rintro hnot ⟨k, hk₁, hk₂, _⟩
    omega
  induction limit generalizing low high with
  | zero =>
    have hnot : ¬ low ≤ high := by omega
    exact ⟨false, by rw [isSquareLoop, if_neg hnot], by simp [hempty hnot]⟩
  | succ limit ih =>
    rw [isSquareLoop]
    by_cases hle : low ≤ high
    · rw [if_pos hle]
      dsimp only
      have hmid : low ≤ (low + high) / 2 ∧ (low + high) / 2 ≤ high := by omega
      rw [pow_succ] at h
      by_cases hbig : (low + high) / 2 * ((low + high) / 2) > n
      · rw [if_pos hbig, ← hasRoot_below (show 0 < (low + high) / 2 by omega) hmid.2 hbig]
        refine ih hlow (by omega) ?_
        rintro hnot ⟨k, hk₁, hk₂, _⟩
        omega
      · rw [if_neg hbig]
        by_cases hsmall : (low + high) / 2 * ((low + high) / 2) < n
        · rw [if_pos hsmall, ← hasRoot_above hlow hmid.1 hsmall]
          refine ih (by omega) (by omega) ?_
          rintro hnot ⟨k, hk₁, hk₂, _⟩
          omega
        · rw [if_neg hsmall]
          exact ⟨true, rfl, by simp only [true_iff]; exact ⟨_, hmid.1, hmid.2, by omega⟩⟩
    · exact ⟨false, by rw [if_neg hle], by simp [hempty hle]⟩

/-- A root of a number from 1 on, of either sign, gives one between 1 and the number. -/
theorem hasRoot_iff (hn : 1 ≤ n) : HasRoot n 1 n ↔ ∃ k, k * k = n := by
  constructor
  · rintro ⟨k, _, _, hk⟩
    exact ⟨k, hk⟩
  · rintro ⟨k, hk⟩
    have hne : k ≠ 0 := by
      rintro rfl
      omega
    have hone : (1 : Int) ≤ k.natAbs := by omega
    have hsquare : (k.natAbs : Int) * k.natAbs = n := by
      rw [← Int.natCast_mul, Int.natAbs_mul_self, hk]
    refine ⟨k.natAbs, hone, ?_, hsquare⟩
    calc (k.natAbs : Int) = k.natAbs * 1 := (Int.mul_one _).symm
      _ ≤ k.natAbs * k.natAbs := Int.mul_le_mul_of_nonneg_left hone (by omega)
      _ = n := hsquare

/-- For every number from 1 on, `is_square` returns within one iteration more than its logarithm
rounded down, and it returns `True` exactly if the number is a square. -/
theorem isSquare_returns (n : Int) (hn : 1 ≤ n) (limit : Nat)
    (hlimit : Nat.log 2 n.toNat + 1 ≤ limit) :
    ∃ answer, isSquare limit n = some answer ∧ (answer = true ↔ ∃ k, k * k = n) := by
  rw [← hasRoot_iff hn]
  refine isSquareLoop_answers limit Int.one_pos ?_
  have hlog : n.toNat < 2 ^ (Nat.log 2 n.toNat + 1) := Nat.lt_pow_succ_log_self Nat.one_lt_two _
  have hmono : 2 ^ (Nat.log 2 n.toNat + 1) ≤ 2 ^ limit := Nat.pow_le_pow_right Nat.two_pos hlimit
  have hcast : ((2 ^ limit : Nat) : Int) = 2 ^ limit := by push_cast; rfl
  omega

/-- The search for a root of 49 returns within six iterations. -/
theorem isSquare_returns_fortyNine :
    (1 : Int) ≤ 49 ∧ Nat.log 2 (49 : Int).toNat + 1 ≤ 6 ∧
      ∃ answer, isSquare 6 49 = some answer ∧ (answer = true ↔ ∃ k : Int, k * k = 49) := by
  have hlog : Nat.log 2 (49 : Int).toNat + 1 ≤ 6 := by
    have hlt : Nat.log 2 (49 : Int).toNat < 6 := Nat.log_lt_of_lt_pow (by decide) (by decide)
    omega
  exact ⟨by decide, hlog, isSquare_returns 49 (by decide) 6 hlog⟩

end HakunaMatata.NumberTheory
