import Mathlib.Data.Int.Basic
import Mathlib.Tactic.FinCases
import HakunaMatata.Simd.Matrix

/-!
# The product of 4x4 matrices for NEON, `matrix_neon.c`

The accumulation of the rows 1, 2 and 3 adds to the register of row 0 instead of their own, and
so only the last product of each of these rows is kept, on top of row 0.
`toMatrix_simdNeonMatrix4Mul` says what is computed, and `neon_mul_eq_iff` for which matrices
that is the product.
-/

namespace HakunaMatata.Simd

open Base

section Definition

variable {R : Type*} [CommRing R]

/-- `simd_neon_matrix4_mul`. The source zeroes `c1`, `c2` and `c3` too and never reads the zeros. -/
def simdNeonMatrix4Mul (increaseSimdIlp : Bool) (mat1 mat2 mat : Matrix4 R) : Matrix4 R :=
  let a0 := load4 mat1 offset0
  let a1 := load4 mat1 offset4
  let a2 := load4 mat1 offset8
  let a3 := load4 mat1 offset12
  let b0 := load4 mat2 offset0
  let b1 := load4 mat2 offset4
  let b2 := load4 mat2 offset8
  let b3 := load4 mat2 offset12
  let c0 := dupN 0
  let rows : Rows R :=
    if increaseSimdIlp = false then
      let c0 := mlaN c0 b0 (getLane a0 0)
      let c0 := mlaN c0 b1 (getLane a0 1)
      let c0 := mlaN c0 b2 (getLane a0 2)
      let c0 := mlaN c0 b3 (getLane a0 3)
      -- each of these overwrites the one before it
      let _c1 := mlaN c0 b0 (getLane a1 0)
      let _c1 := mlaN c0 b1 (getLane a1 1)
      let _c1 := mlaN c0 b2 (getLane a1 2)
      let c1 := mlaN c0 b3 (getLane a1 3)
      let _c2 := mlaN c0 b0 (getLane a2 0)
      let _c2 := mlaN c0 b1 (getLane a2 1)
      let _c2 := mlaN c0 b2 (getLane a2 2)
      let c2 := mlaN c0 b3 (getLane a2 3)
      let _c3 := mlaN c0 b0 (getLane a3 0)
      let _c3 := mlaN c0 b1 (getLane a3 1)
      let _c3 := mlaN c0 b2 (getLane a3 2)
      let c3 := mlaN c0 b3 (getLane a3 3)
      ⟨c0, c1, c2, c3⟩
    else
      let c0 := mlaN c0 b0 (getLane a0 0)
      let _c1 := mlaN c0 b0 (getLane a1 0)
      let _c2 := mlaN c0 b0 (getLane a2 0)
      let _c3 := mlaN c0 b0 (getLane a3 0)
      let c0 := mlaN c0 b1 (getLane a0 1)
      let _c1 := mlaN c0 b1 (getLane a1 1)
      let _c2 := mlaN c0 b1 (getLane a2 1)
      let _c3 := mlaN c0 b1 (getLane a3 1)
      let c0 := mlaN c0 b2 (getLane a0 2)
      let _c1 := mlaN c0 b2 (getLane a1 2)
      let _c2 := mlaN c0 b2 (getLane a2 2)
      let _c3 := mlaN c0 b2 (getLane a3 2)
      let c0 := mlaN c0 b3 (getLane a0 3)
      let c1 := mlaN c0 b3 (getLane a1 3)
      let c2 := mlaN c0 b3 (getLane a2 3)
      let c3 := mlaN c0 b3 (getLane a3 3)
      ⟨c0, c1, c2, c3⟩
  storeRows mat rows

end Definition

section Product

variable {R : Type*} [CommRing R] (a b : Matrix4 R)

/-- The chain of row 0 computes the row of the product. -/
theorem neon_row_zero :
    mlaN (mlaN (mlaN (mlaN (dupN 0) (toMatrix b 0) (toMatrix a 0 0)) (toMatrix b 1)
      (toMatrix a 0 1)) (toMatrix b 2) (toMatrix a 0 2)) (toMatrix b 3) (toMatrix a 0 3) =
      (toMatrix a * toMatrix b) 0 := by
  funext j
  rw [Matrix.mul_apply, Fin.sum_univ_four]
  simp only [mlaN, dupN]
  ring

/-- Both variants compute row 0 of the product. Of each row below it only the last product is left,
on top of row 0. -/
theorem toMatrix_simdNeonMatrix4Mul (increaseSimdIlp : Bool) (mat : Matrix4 R) :
    toMatrix (simdNeonMatrix4Mul increaseSimdIlp a b mat) =
      Matrix.of ![(toMatrix a * toMatrix b) 0,
        mlaN ((toMatrix a * toMatrix b) 0) (toMatrix b 3) (toMatrix a 1 3),
        mlaN ((toMatrix a * toMatrix b) 0) (toMatrix b 3) (toMatrix a 2 3),
        mlaN ((toMatrix a * toMatrix b) 0) (toMatrix b 3) (toMatrix a 3 3)] := by
  rw [← neon_row_zero]
  cases increaseSimdIlp with
  | false => exact toMatrix_storeRows mat _
  | true => exact toMatrix_storeRows mat _

/-- When what is left of a row is the row of the product. -/
theorem neon_row_eq_iff (i j : Fin 4) :
    mlaN ((toMatrix a * toMatrix b) 0) (toMatrix b 3) (toMatrix a i 3) j =
        (toMatrix a * toMatrix b) i j ↔
      toMatrix a 0 0 * toMatrix b 0 j + toMatrix a 0 1 * toMatrix b 1 j +
          toMatrix a 0 2 * toMatrix b 2 j + toMatrix a 0 3 * toMatrix b 3 j =
        toMatrix a i 0 * toMatrix b 0 j + toMatrix a i 1 * toMatrix b 1 j +
          toMatrix a i 2 * toMatrix b 2 j := by
  simp only [mlaN, Matrix.mul_apply, Fin.sum_univ_four]
  rw [mul_comm (toMatrix b 3 j)]
  exact add_left_inj _

/-- The NEON product, in each of its variants, agrees with the scalar product exactly if row 0
of the product is, in every column, the sum of the first three products of each other row. -/
theorem neon_mul_eq_iff (increaseSimdIlp : Bool) (mat mat' : Matrix4 R) :
    simdNeonMatrix4Mul increaseSimdIlp a b mat = matrix4Mul a b mat' ↔
      ∀ i j : Fin 4, i ≠ 0 →
        a (entry 0 0) * b (entry 0 j) + a (entry 0 1) * b (entry 1 j) +
            a (entry 0 2) * b (entry 2 j) + a (entry 0 3) * b (entry 3 j) =
          a (entry i 0) * b (entry 0 j) + a (entry i 1) * b (entry 1 j) +
            a (entry i 2) * b (entry 2 j) := by
  have hrows : simdNeonMatrix4Mul increaseSimdIlp a b mat = matrix4Mul a b mat' ↔
      ∀ i j : Fin 4, i ≠ 0 →
        mlaN ((toMatrix a * toMatrix b) 0) (toMatrix b 3) (toMatrix a i 3) j =
          (toMatrix a * toMatrix b) i j := by
    rw [← toMatrix_injective.eq_iff, toMatrix_simdNeonMatrix4Mul, toMatrix_matrix4Mul]
    constructor
    · intro heq i j hi
      rw [← heq]
      fin_cases i
      · exact absurd rfl hi
      · rfl
      · rfl
      · rfl
    · intro hrow
      exact eq_of_rows rfl (funext fun j => hrow 1 j (by decide))
        (funext fun j => hrow 2 j (by decide)) (funext fun j => hrow 3 j (by decide))
  rw [hrows]
  exact forall_congr' fun i => forall_congr' fun j => imp_congr_right fun _ =>
    neon_row_eq_iff a b i j

end Product

/-- The identity matrix. -/
def identity4 : Matrix4 Int :=
  ![1, 0, 0, 0, 0, 1, 0, 0, 0, 0, 1, 0, 0, 0, 0, 1]

/-- The identity matrix times itself: the scalar product has a zero in row 1, column 0, and both
variants for NEON have a one there. -/
theorem neon_mul_identity_wrong :
    simdNeonMatrix4Mul false identity4 identity4 (fun _ => 0) (entry 1 0) = 1 ∧
      simdNeonMatrix4Mul true identity4 identity4 (fun _ => 0) (entry 1 0) = 1 ∧
      matrix4Mul identity4 identity4 (fun _ => 0) (entry 1 0) = 0 := by
  decide

end HakunaMatata.Simd
