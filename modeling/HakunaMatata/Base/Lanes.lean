import Mathlib.Algebra.Ring.Defs
import Mathlib.Tactic.Ring

/-!
# Vector registers as lanes

A vector register is a function from its lanes to values, and memory is an array of such values.
The definitions give the documented lane semantics of the vector instructions of two instruction
sets, with exact arithmetic in place of floating point. `shufflePs_self` and `shufflePs256_self`
are what the broadcasting shuffles come down to.
-/

namespace HakunaMatata.Base

/-- A register of `count` lanes. -/
abbrev Lanes (count : Nat) (R : Type*) := Fin count → R

section Memory

variable {R : Type*} {size count : Nat}

/-- The lanes that stand in memory from the offset on. -/
def loadLanes (memory : Fin size → R) (count offset : Nat) (h : offset + count ≤ size) :
    Lanes count R :=
  fun lane => memory ⟨offset + lane, by omega⟩

/-- Write the lanes to memory from the offset on. -/
def storeLanes (memory : Fin size → R) (offset : Nat) (v : Lanes count R) : Fin size → R :=
  fun p => if h : offset ≤ p ∧ p < offset + count then v ⟨p - offset, by omega⟩ else memory p

theorem storeLanes_inside (memory : Fin size → R) {offset : Nat} (v : Lanes count R) {p : Fin size}
    (lane : Fin count) (hp : p.val = offset + lane) : storeLanes memory offset v p = v lane := by
  unfold storeLanes
  rw [dif_pos (by omega)]
  congr
  omega

theorem storeLanes_outside (memory : Fin size → R) {offset : Nat} (v : Lanes count R)
    {p : Fin size} (hp : p.val < offset ∨ offset + count ≤ p) :
    storeLanes memory offset v p = memory p := by
  unfold storeLanes
  rw [dif_neg (by omega)]

end Memory

section Shuffle

variable {R : Type*}

/-- `_MM_SHUFFLE`. -/
def mmShuffle (z y x w : Nat) : Nat :=
  z <<< 6 ||| y <<< 4 ||| x <<< 2 ||| w

/-- The two bits of a shuffle control that select the source of a lane. -/
def selector (imm lane : Nat) : Fin 4 :=
  ⟨(imm >>> (2 * lane)) % 4, Nat.mod_lt _ (by decide)⟩

/-- `_mm_shuffle_ps`: the lower two lanes come from the first register, the upper two from the
second. -/
def shufflePs (a b : Lanes 4 R) (imm : Nat) : Lanes 4 R :=
  fun lane => if lane.val < 2 then a (selector imm lane) else b (selector imm lane)

/-- `_mm256_shuffle_ps`: the shuffle of each half of the registers. -/
def shufflePs256 (a b : Lanes 8 R) (imm : Nat) : Lanes 8 R :=
  fun lane =>
    let source : Fin 8 := ⟨4 * (lane / 4) + selector imm (lane % 4), by omega⟩
    if lane.val % 4 < 2 then a source else b source

/-- `_mm256_broadcast_ps`: both halves are the given four lanes. -/
def broadcastPs256 (v : Lanes 4 R) : Lanes 8 R :=
  fun lane => v ⟨lane % 4, by omega⟩

/-- `vgetq_lane_f32`: one lane, named by the low bits of the constant. -/
def getLane (v : Lanes 4 R) (lane : Nat) : R :=
  v ⟨lane % 4, Nat.mod_lt lane (Nat.succ_pos 3)⟩

/-- A control that names one lane four times selects it everywhere. -/
theorem selector_mmShuffle (k lane : Fin 4) : selector (mmShuffle k k k k) lane = k := by
  revert k lane
  decide

@[simp] theorem shufflePs_self (v : Lanes 4 R) (k : Fin 4) :
    shufflePs v v (mmShuffle k k k k) = fun _ => v k := by
  funext lane
  unfold shufflePs
  rw [selector_mmShuffle, ite_self]

@[simp] theorem shufflePs256_self (v : Lanes 8 R) (k : Fin 4) :
    shufflePs256 v v (mmShuffle k k k k) =
      fun lane : Fin 8 => v ⟨4 * (lane / 4) + k, by omega⟩ := by
  funext lane
  have hselector := selector_mmShuffle k ⟨lane % 4, by omega⟩
  unfold shufflePs256
  simp only [hselector, ite_self]

end Shuffle

section Arithmetic

variable {R : Type*} [CommRing R] {count : Nat}

/-- `_mm_add_ps` and `_mm256_add_ps`. -/
def addPs (a b : Lanes count R) : Lanes count R :=
  fun lane => a lane + b lane

/-- `_mm_mul_ps` and `_mm256_mul_ps`. -/
def mulPs (a b : Lanes count R) : Lanes count R :=
  fun lane => a lane * b lane

/-- `_mm256_fmadd_ps`: the product of the first two registers plus the third. -/
def fmaddPs (a b c : Lanes count R) : Lanes count R :=
  fun lane => a lane * b lane + c lane

/-- `vdupq_n_f32`: the same value in all lanes. -/
def dupN (x : R) : Lanes count R :=
  fun _ => x

/-- `vmlaq_n_f32`: the first register plus the second one times the scalar. -/
def mlaN (a b : Lanes count R) (x : R) : Lanes count R :=
  fun lane => a lane + b lane * x

end Arithmetic

end HakunaMatata.Base
