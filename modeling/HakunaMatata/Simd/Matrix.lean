import Mathlib.Algebra.BigOperators.Fin
import Mathlib.Data.Matrix.Mul
import HakunaMatata.Base.Lanes

/-!
# The scalar product of 4x4 matrices, `matrix.c`

A matrix is stored in sixteen consecutive entries, row by row. The scalar product is a triple loop;
`toMatrix_matrix4Mul` says that it computes the product of the matrices that the entries denote.
The vector implementations are compared with it in the modules that follow.
-/

namespace HakunaMatata.Simd

open Base

/-- `matrix4_t`. -/
abbrev Matrix4 (R : Type*) := Fin 16 → R

/-- The index of an entry in row `i` and column `j`. -/
def entry (i j : Fin 4) : Fin 16 :=
  ⟨i * 4 + j, by omega⟩

section Scalar

variable {R : Type*} [CommRing R] (a b : Matrix4 R)

/-- The innermost loop. -/
def mulSum (i j : Fin 4) : R :=
  (List.finRange 4).foldl (fun sum k => sum + a (entry i k) * b (entry k j)) 0

/-- The loop over the columns of one row. -/
def mulRow (i : Fin 4) (c : Matrix4 R) : Matrix4 R :=
  (List.finRange 4).foldl (fun c j => Function.update c (entry i j) (mulSum a b i j)) c

/-- `matrix4_mul`. The third argument is what the result matrix held before. -/
def matrix4Mul (mat : Matrix4 R) : Matrix4 R :=
  (List.finRange 4).foldl (fun c i => mulRow a b i c) mat

end Scalar

/-- The matrix that the entries denote. -/
def toMatrix {R : Type*} (m : Matrix4 R) : Matrix (Fin 4) (Fin 4) R :=
  Matrix.of fun i j => m (entry i j)

theorem entry_surjective (p : Fin 16) : ∃ i j, entry i j = p := by
  refine ⟨⟨p / 4, by omega⟩, ⟨p % 4, by omega⟩, ?_⟩
  unfold entry
  ext
  show p.val / 4 * 4 + p.val % 4 = p.val
  omega

theorem entry_inj {i j i' j' : Fin 4} : entry i j = entry i' j' ↔ i = i' ∧ j = j' := by
  unfold entry
  simp only [Fin.ext_iff]
  omega

theorem eq_of_rows {R : Type*} {M N : Matrix (Fin 4) (Fin 4) R} (h0 : M 0 = N 0) (h1 : M 1 = N 1)
    (h2 : M 2 = N 2) (h3 : M 3 = N 3) : M = N := by
  funext i
  match i with
  | 0 => exact h0
  | 1 => exact h1
  | 2 => exact h2
  | 3 => exact h3

theorem toMatrix_injective {R : Type*} : Function.Injective (toMatrix (R := R)) := by
  intro m m' h
  funext p
  obtain ⟨i, j, rfl⟩ := entry_surjective p
  exact congrFun (congrFun h i) j

/-- The four entries from the offset on, as `_mm_load_ps` and `vld1q_f32` read them. -/
def load4 {R : Type*} (m : Matrix4 R) (offset : Fin 13) : Lanes 4 R :=
  loadLanes m 4 offset (by omega)

/-- The offset of row 0. -/
abbrev offset0 : Fin 13 := 0

/-- The offset of row 1. -/
abbrev offset4 : Fin 13 := 4

/-- The offset of row 2. -/
abbrev offset8 : Fin 13 := 8

/-- The offset of row 3. -/
abbrev offset12 : Fin 13 := 12

/-- The registers in which the rows of the result are computed. -/
structure Rows (R : Type*) where
  c0 : Lanes 4 R
  c1 : Lanes 4 R
  c2 : Lanes 4 R
  c3 : Lanes 4 R

/-- Store the four rows of the result. -/
def storeRows {R : Type*} (mat : Matrix4 R) (rows : Rows R) : Matrix4 R :=
  let mat := storeLanes mat 0 rows.c0
  let mat := storeLanes mat 4 rows.c1
  let mat := storeLanes mat 8 rows.c2
  storeLanes mat 12 rows.c3

/-- The eight entries from the offset on, as `_mm256_load_ps` reads them. -/
def load8 {R : Type*} (m : Matrix4 R) (offset : Fin 9) : Lanes 8 R :=
  loadLanes m 8 offset (by omega)

theorem toMatrix_storeRows {R : Type*} (m : Matrix4 R) (rows : Rows R) :
    toMatrix (storeRows m rows) = Matrix.of ![rows.c0, rows.c1, rows.c2, rows.c3] := by
  apply eq_of_rows
  · funext j
    have hp : (entry 0 j).val = 0 + j := rfl
    show storeLanes _ 12 rows.c3 (entry 0 j) = rows.c0 j
    rw [storeLanes_outside _ _ (by omega), storeLanes_outside _ _ (by omega),
      storeLanes_outside _ _ (by omega), storeLanes_inside _ _ j hp]
  · funext j
    have hp : (entry 1 j).val = 4 + j := rfl
    show storeLanes _ 12 rows.c3 (entry 1 j) = rows.c1 j
    rw [storeLanes_outside _ _ (by omega), storeLanes_outside _ _ (by omega),
      storeLanes_inside _ _ j hp]
  · funext j
    have hp : (entry 2 j).val = 8 + j := rfl
    show storeLanes _ 12 rows.c3 (entry 2 j) = rows.c2 j
    rw [storeLanes_outside _ _ (by omega), storeLanes_inside _ _ j hp]
  · funext j
    have hp : (entry 3 j).val = 12 + j := rfl
    show storeLanes _ 12 rows.c3 (entry 3 j) = rows.c3 j
    rw [storeLanes_inside _ _ j hp]

/-- The lane of a wide register that holds column `j` of the row in this half. -/
def lane8 (half : Fin 2) (j : Fin 4) : Fin 8 :=
  ⟨4 * half + j, by omega⟩

theorem store_pairs {R : Type*} (m : Matrix4 R) (c01 c23 : Lanes 8 R) (half : Fin 2)
    (j : Fin 4) :
    storeLanes (storeLanes m 0 c01) 8 c23 (entry ⟨half, by omega⟩ j) = c01 (lane8 half j) ∧
      storeLanes (storeLanes m 0 c01) 8 c23 (entry ⟨2 + half, by omega⟩ j) =
        c23 (lane8 half j) := by
  have hfirst : (entry ⟨half, by omega⟩ j).val = 0 + (lane8 half j).val := by
    unfold entry lane8
    simp only
    omega
  have hsecond : (entry ⟨2 + half, by omega⟩ j).val = 8 + (lane8 half j).val := by
    unfold entry lane8
    simp only
    omega
  constructor
  · rw [storeLanes_outside _ _ (by omega), storeLanes_inside _ _ _ hfirst]
  · rw [storeLanes_inside _ _ _ hsecond]

section Loops

variable {R : Type*} [CommRing R] (a b : Matrix4 R)

theorem mulSum_eq (i j : Fin 4) : mulSum a b i j = (toMatrix a * toMatrix b) i j := by
  rw [Matrix.mul_apply, Fin.sum_univ_four]
  simp [mulSum, toMatrix, List.finRange_succ]

/-- The loop over the columns writes those of its row that it has reached. -/
theorem foldl_columns (i : Fin 4) (columns : List (Fin 4)) (c : Matrix4 R) (i' j : Fin 4) :
    columns.foldl (fun c j => Function.update c (entry i j) (mulSum a b i j)) c (entry i' j) =
      if i' = i ∧ j ∈ columns then mulSum a b i j else c (entry i' j) := by
  induction columns generalizing c with
  | nil => simp
  | cons column columns ih =>
    rw [List.foldl_cons, ih]
    by_cases hrow : i' = i
    · by_cases hcolumn : j = column
      · simp [hrow, hcolumn]
      · simp [hrow, hcolumn, entry_inj]
    · simp [hrow, entry_inj]

/-- The loop over the rows writes the rows that it has reached. -/
theorem foldl_rows (rows : List (Fin 4)) (c : Matrix4 R) (i j : Fin 4) :
    rows.foldl (fun c i => mulRow a b i c) c (entry i j) =
      if i ∈ rows then mulSum a b i j else c (entry i j) := by
  induction rows generalizing c with
  | nil => simp
  | cons row rows ih =>
    rw [List.foldl_cons, ih]
    unfold mulRow
    rw [foldl_columns]
    by_cases hrow : i = row
    · simp [hrow]
    · simp [hrow]

theorem toMatrix_matrix4Mul (mat : Matrix4 R) :
    toMatrix (matrix4Mul a b mat) = toMatrix a * toMatrix b := by
  ext i j
  show matrix4Mul a b mat (entry i j) = _
  unfold matrix4Mul
  rw [foldl_rows, if_pos (List.mem_finRange i), mulSum_eq]

end Loops

end HakunaMatata.Simd
