import HakunaMatata.Simd.Matrix

/-!
# The products of 4x4 matrices for SSE4 and AVX2, `matrix_sse4.c` and `matrix_avx2.c`

Both files have two variants, which `INCREASE_SIMD_ILP` selects: one computes row after row, the
other interleaves the rows. `sse4_row` and `avx2_rows` say what one chain of instructions
computes, and `x86_mul_eq_matrix4Mul` that all four variants agree with the scalar product.
-/

namespace HakunaMatata.Simd

open Base

section Definitions

variable {R : Type*} [CommRing R]

/-- `M128_BROADCAST`. -/
def m128Broadcast (v : Lanes 4 R) (i : Nat) : Lanes 4 R :=
  shufflePs v v (mmShuffle i i i i)

/-- `simd_sse4_matrix4_mul`. The registers `c0` to `c3` are zeroed first in the source, and then
overwritten. -/
def simdSse4Matrix4Mul (increaseSimdIlp : Bool) (mat1 mat2 mat : Matrix4 R) : Matrix4 R :=
  let a0 := load4 mat1 offset0
  let a1 := load4 mat1 offset4
  let a2 := load4 mat1 offset8
  let a3 := load4 mat1 offset12
  let b0 := load4 mat2 offset0
  let b1 := load4 mat2 offset4
  let b2 := load4 mat2 offset8
  let b3 := load4 mat2 offset12
  let rows : Rows R :=
    if increaseSimdIlp = false then
      let c0 := mulPs (m128Broadcast a0 0) b0
      let c0 := addPs c0 (mulPs (m128Broadcast a0 1) b1)
      let c0 := addPs c0 (mulPs (m128Broadcast a0 2) b2)
      let c0 := addPs c0 (mulPs (m128Broadcast a0 3) b3)
      let c1 := mulPs (m128Broadcast a1 0) b0
      let c1 := addPs c1 (mulPs (m128Broadcast a1 1) b1)
      let c1 := addPs c1 (mulPs (m128Broadcast a1 2) b2)
      let c1 := addPs c1 (mulPs (m128Broadcast a1 3) b3)
      let c2 := mulPs (m128Broadcast a2 0) b0
      let c2 := addPs c2 (mulPs (m128Broadcast a2 1) b1)
      let c2 := addPs c2 (mulPs (m128Broadcast a2 2) b2)
      let c2 := addPs c2 (mulPs (m128Broadcast a2 3) b3)
      let c3 := mulPs (m128Broadcast a3 0) b0
      let c3 := addPs c3 (mulPs (m128Broadcast a3 1) b1)
      let c3 := addPs c3 (mulPs (m128Broadcast a3 2) b2)
      let c3 := addPs c3 (mulPs (m128Broadcast a3 3) b3)
      ⟨c0, c1, c2, c3⟩
    else
      let c0 := mulPs (m128Broadcast a0 0) b0
      let c1 := mulPs (m128Broadcast a1 0) b0
      let c2 := mulPs (m128Broadcast a2 0) b0
      let c3 := mulPs (m128Broadcast a3 0) b0
      let c0 := addPs c0 (mulPs (m128Broadcast a0 1) b1)
      let c1 := addPs c1 (mulPs (m128Broadcast a1 1) b1)
      let c2 := addPs c2 (mulPs (m128Broadcast a2 1) b1)
      let c3 := addPs c3 (mulPs (m128Broadcast a3 1) b1)
      let c0 := addPs c0 (mulPs (m128Broadcast a0 2) b2)
      let c1 := addPs c1 (mulPs (m128Broadcast a1 2) b2)
      let c2 := addPs c2 (mulPs (m128Broadcast a2 2) b2)
      let c3 := addPs c3 (mulPs (m128Broadcast a3 2) b2)
      let c0 := addPs c0 (mulPs (m128Broadcast a0 3) b3)
      let c1 := addPs c1 (mulPs (m128Broadcast a1 3) b3)
      let c2 := addPs c2 (mulPs (m128Broadcast a2 3) b3)
      let c3 := addPs c3 (mulPs (m128Broadcast a3 3) b3)
      ⟨c0, c1, c2, c3⟩
  storeRows mat rows

/-- `simd_avx2_matrix4_mul`. -/
def simdAvx2Matrix4Mul (increaseSimdIlp : Bool) (mat1 mat2 mat : Matrix4 R) : Matrix4 R :=
  let b00 := broadcastPs256 (load4 mat2 offset0)
  let b11 := broadcastPs256 (load4 mat2 offset4)
  let b22 := broadcastPs256 (load4 mat2 offset8)
  let b33 := broadcastPs256 (load4 mat2 offset12)
  if increaseSimdIlp = false then
    -- rows 0 and 1
    let a01 := load8 mat1 0
    let a01_0 := shufflePs256 a01 a01 (mmShuffle 0 0 0 0)
    let a01_1 := shufflePs256 a01 a01 (mmShuffle 1 1 1 1)
    let a01_2 := shufflePs256 a01 a01 (mmShuffle 2 2 2 2)
    let a01_3 := shufflePs256 a01 a01 (mmShuffle 3 3 3 3)
    let c01 := mulPs a01_0 b00
    let c01 := fmaddPs a01_1 b11 c01
    let c01 := fmaddPs a01_2 b22 c01
    let c01 := fmaddPs a01_3 b33 c01
    let mat := storeLanes mat 0 c01
    -- rows 2 and 3
    let a23 := load8 mat1 8
    let a23_0 := shufflePs256 a23 a23 (mmShuffle 0 0 0 0)
    let a23_1 := shufflePs256 a23 a23 (mmShuffle 1 1 1 1)
    let a23_2 := shufflePs256 a23 a23 (mmShuffle 2 2 2 2)
    let a23_3 := shufflePs256 a23 a23 (mmShuffle 3 3 3 3)
    let c23 := mulPs a23_0 b00
    let c23 := fmaddPs a23_1 b11 c23
    let c23 := fmaddPs a23_2 b22 c23
    let c23 := fmaddPs a23_3 b33 c23
    storeLanes mat 8 c23
  else
    let a01 := load8 mat1 0
    let a01_0 := shufflePs256 a01 a01 (mmShuffle 0 0 0 0)
    let a01_1 := shufflePs256 a01 a01 (mmShuffle 1 1 1 1)
    let a01_2 := shufflePs256 a01 a01 (mmShuffle 2 2 2 2)
    let a01_3 := shufflePs256 a01 a01 (mmShuffle 3 3 3 3)
    let a23 := load8 mat1 8
    let a23_0 := shufflePs256 a23 a23 (mmShuffle 0 0 0 0)
    let a23_1 := shufflePs256 a23 a23 (mmShuffle 1 1 1 1)
    let a23_2 := shufflePs256 a23 a23 (mmShuffle 2 2 2 2)
    let a23_3 := shufflePs256 a23 a23 (mmShuffle 3 3 3 3)
    let c01 := mulPs a01_0 b00
    let c23 := mulPs a23_0 b00
    let c01 := fmaddPs a01_1 b11 c01
    let c23 := fmaddPs a23_1 b11 c23
    let c01 := fmaddPs a01_2 b22 c01
    let c23 := fmaddPs a23_2 b22 c23
    let c01 := fmaddPs a01_3 b33 c01
    let c23 := fmaddPs a23_3 b33 c23
    let mat := storeLanes mat 0 c01
    storeLanes mat 8 c23

end Definitions

section Products

variable {R : Type*} [CommRing R] (a b : Matrix4 R)

/-- The chain of one row: each entry of the row times a row of the second matrix. -/
theorem sse4_row (i : Fin 4) (row : Lanes 4 R) (hrow : row = toMatrix a i) :
    addPs (addPs (addPs (mulPs (m128Broadcast row 0) (toMatrix b 0))
      (mulPs (m128Broadcast row 1) (toMatrix b 1))) (mulPs (m128Broadcast row 2) (toMatrix b 2)))
      (mulPs (m128Broadcast row 3) (toMatrix b 3)) = (toMatrix a * toMatrix b) i := by
  have h0 : m128Broadcast row 0 = fun _ => row 0 := shufflePs_self row 0
  have h1 : m128Broadcast row 1 = fun _ => row 1 := shufflePs_self row 1
  have h2 : m128Broadcast row 2 = fun _ => row 2 := shufflePs_self row 2
  have h3 : m128Broadcast row 3 = fun _ => row 3 := shufflePs_self row 3
  funext j
  rw [Matrix.mul_apply, Fin.sum_univ_four, ← hrow]
  simp only [addPs, mulPs, h0, h1, h2, h3]

theorem toMatrix_simdSse4Matrix4Mul (increaseSimdIlp : Bool) (mat : Matrix4 R) :
    toMatrix (simdSse4Matrix4Mul increaseSimdIlp a b mat) = toMatrix a * toMatrix b := by
  have hrows : toMatrix (simdSse4Matrix4Mul increaseSimdIlp a b mat) =
      Matrix.of ![(toMatrix a * toMatrix b) 0, (toMatrix a * toMatrix b) 1,
        (toMatrix a * toMatrix b) 2, (toMatrix a * toMatrix b) 3] := by
    rw [← sse4_row a b 0 _ rfl, ← sse4_row a b 1 _ rfl, ← sse4_row a b 2 _ rfl,
      ← sse4_row a b 3 _ rfl]
    cases increaseSimdIlp with
    | false => exact toMatrix_storeRows mat _
    | true => exact toMatrix_storeRows mat _
  rw [hrows]
  exact eq_of_rows rfl rfl rfl rfl

/-- The chain of two rows: each half of the register computes its row. -/
theorem avx2_rows (rows : Fin 2 → Fin 4) (pair : Lanes 8 R)
    (hpair : ∀ half k, pair (lane8 half k) = toMatrix a (rows half) k) (half : Fin 2)
    (j : Fin 4) :
    fmaddPs (shufflePs256 pair pair (mmShuffle 3 3 3 3)) (broadcastPs256 (toMatrix b 3))
      (fmaddPs (shufflePs256 pair pair (mmShuffle 2 2 2 2)) (broadcastPs256 (toMatrix b 2))
        (fmaddPs (shufflePs256 pair pair (mmShuffle 1 1 1 1)) (broadcastPs256 (toMatrix b 1))
          (mulPs (shufflePs256 pair pair (mmShuffle 0 0 0 0)) (broadcastPs256 (toMatrix b 0)))))
      (lane8 half j) = (toMatrix a * toMatrix b) (rows half) j := by
  have hspread : ∀ k : Fin 4,
      shufflePs256 pair pair (mmShuffle k k k k) (lane8 half j) = toMatrix a (rows half) k := by
    intro k
    rw [shufflePs256_self, ← hpair]
    refine congrArg pair (Fin.ext ?_)
    show 4 * ((4 * half.val + j.val) / 4) + k.val = 4 * half.val + k.val
    omega
  have hbroadcast : ∀ k : Fin 4,
      broadcastPs256 (toMatrix b k) (lane8 half j) = toMatrix b k j := by
    intro k
    unfold broadcastPs256 lane8
    congr 1
    ext
    show (4 * half.val + j.val) % 4 = j.val
    omega
  have h0 : shufflePs256 pair pair (mmShuffle 0 0 0 0) (lane8 half j) = _ := hspread 0
  have h1 : shufflePs256 pair pair (mmShuffle 1 1 1 1) (lane8 half j) = _ := hspread 1
  have h2 : shufflePs256 pair pair (mmShuffle 2 2 2 2) (lane8 half j) = _ := hspread 2
  have h3 : shufflePs256 pair pair (mmShuffle 3 3 3 3) (lane8 half j) = _ := hspread 3
  rw [Matrix.mul_apply, Fin.sum_univ_four]
  simp only [fmaddPs, mulPs, h0, h1, h2, h3, hbroadcast]
  ring

theorem toMatrix_simdAvx2Matrix4Mul (increaseSimdIlp : Bool) (mat : Matrix4 R) :
    toMatrix (simdAvx2Matrix4Mul increaseSimdIlp a b mat) = toMatrix a * toMatrix b := by
  have hlow : ∀ half k, load8 a 0 (lane8 half k) = toMatrix a ⟨half, by omega⟩ k := by
    intro half k
    unfold load8 loadLanes toMatrix entry lane8
    simp only [Matrix.of_apply]
    congr 2
    omega
  have hhigh : ∀ half k, load8 a 8 (lane8 half k) = toMatrix a ⟨2 + half, by omega⟩ k := by
    intro half k
    unfold load8 loadLanes toMatrix entry lane8
    simp only [Matrix.of_apply]
    congr 2
    omega
  have hrows : ∀ (half : Fin 2) (j : Fin 4),
      simdAvx2Matrix4Mul increaseSimdIlp a b mat (entry ⟨half, by omega⟩ j) =
          (toMatrix a * toMatrix b) ⟨half, by omega⟩ j ∧
        simdAvx2Matrix4Mul increaseSimdIlp a b mat (entry ⟨2 + half, by omega⟩ j) =
          (toMatrix a * toMatrix b) ⟨2 + half, by omega⟩ j := by
    intro half j
    rw [← avx2_rows a b _ _ hlow half j, ← avx2_rows a b _ _ hhigh half j]
    cases increaseSimdIlp with
    | false => exact store_pairs mat _ _ half j
    | true => exact store_pairs mat _ _ half j
  exact eq_of_rows (funext fun j => (hrows 0 j).1) (funext fun j => (hrows 1 j).1)
    (funext fun j => (hrows 0 j).2) (funext fun j => (hrows 1 j).2)

/-- The SSE4 and the AVX2 product, each in both of its variants, agree with the scalar product in
all entries, whatever the result matrices held before. -/
theorem x86_mul_eq_matrix4Mul (increaseSimdIlp : Bool) (mat mat' : Matrix4 R) :
    simdSse4Matrix4Mul increaseSimdIlp a b mat = matrix4Mul a b mat' ∧
      simdAvx2Matrix4Mul increaseSimdIlp a b mat = matrix4Mul a b mat' := by
  constructor
  · apply toMatrix_injective
    rw [toMatrix_simdSse4Matrix4Mul, toMatrix_matrix4Mul]
  · apply toMatrix_injective
    rw [toMatrix_simdAvx2Matrix4Mul, toMatrix_matrix4Mul]

end Products

end HakunaMatata.Simd
