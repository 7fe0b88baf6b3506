import Mathlib.Data.List.Induction
import Mathlib.Data.Nat.Bitwise
import Mathlib.Tactic.Ring

/-!
# Numbers by their digits, and fields of bits

A list of digits stands for a number, the most significant digit first, and `toRadix` gives the
digits of a number back. `field` is a range of the bits of a number. A program that regroups a
stream of bits keeps a few of them in a machine word; `field_shiftIn` and `field_shiftOut` say
what shifting bits into and out of such a word does.
-/

namespace HakunaMatata.Base

/-- The number with these digits. -/
def ofRadix (base : Nat) (digits : List Nat) : Nat :=
  digits.foldl (fun n digit => n * base + digit) 0

/-- The last `len` digits of a number. -/
def toRadix (base : Nat) : Nat → Nat → List Nat
  | 0, _ => []
  | len + 1, n => toRadix base len (n / base) ++ [n % base]

section Radix

variable {base : Nat} {digits : List Nat}

@[simp] theorem ofRadix_nil : ofRadix base [] = 0 := rfl

@[simp] theorem ofRadix_concat (digits : List Nat) (digit : Nat) :
    ofRadix base (digits ++ [digit]) = ofRadix base digits * base + digit := by
  simp [ofRadix]

@[simp] theorem length_toRadix (base len n : Nat) : (toRadix base len n).length = len := by
  induction len generalizing n with
  | zero => rfl
  | succ len ih => simp [toRadix, ih]

/-- The digits of the number with these digits. -/
theorem toRadix_ofRadix (h : ∀ digit ∈ digits, digit < base) :
    toRadix base digits.length (ofRadix base digits) = digits := by
  induction digits using List.reverseRecOn with
  | nil => rfl
  | append_singleton digits digit ih =>
    have hdigit : digit < base := h digit (List.mem_append_right _ List.mem_cons_self)
    have hdiv : (ofRadix base digits * base + digit) / base = ofRadix base digits := by
      rw [Nat.mul_comm, Nat.mul_add_div (by omega), Nat.div_eq_of_lt hdigit, Nat.add_zero]
    have hmod : (ofRadix base digits * base + digit) % base = digit := by
      rw [Nat.mul_comm, Nat.mul_add_mod, Nat.mod_eq_of_lt hdigit]
    rw [List.length_append, ofRadix_concat]
    show toRadix base digits.length _ ++ [_] = _
    rw [hdiv, hmod, ih fun d hd => h d (List.mem_append_left _ hd)]

theorem ofRadix_toRadix (base len n : Nat) :
    ofRadix base (toRadix base len n) = n % base ^ len := by
  induction len generalizing n with
  | zero => rw [Nat.pow_zero, Nat.mod_one]; rfl
  | succ len ih =>
    rw [toRadix, ofRadix_concat, ih, Nat.pow_succ', Nat.mod_mul]
    ring

/-- A digit of a number, counted from the most significant one. -/
theorem getElem?_toRadix (base : Nat) {len i : Nat} (h : i < len) (n : Nat) :
    (toRadix base len n)[i]? = some (n / base ^ (len - 1 - i) % base) := by
  induction len generalizing n with
  | zero => exact absurd h (Nat.not_lt_zero i)
  | succ len ih =>
    rw [toRadix]
    rcases Nat.lt_succ_iff_lt_or_eq.mp h with hlt | rfl
    · rw [List.getElem?_append_left (by rwa [length_toRadix]), ih hlt, Nat.div_div_eq_div_mul,
        ← Nat.pow_succ']
      congr 4
      omega
    · rw [List.getElem?_append_right (by rw [length_toRadix]), length_toRadix, Nat.sub_self]
      simp

theorem ofRadix_div_mod (h : ∀ digit ∈ digits, digit < base) {i : Nat} (hi : i < digits.length) :
    ofRadix base digits / base ^ (digits.length - 1 - i) % base = digits[i] := by
  have hdigit := getElem?_toRadix base hi (ofRadix base digits)
  rw [toRadix_ofRadix h, List.getElem?_eq_getElem hi] at hdigit
  exact (Option.some.inj hdigit).symm

theorem ofRadix_lt (h : ∀ digit ∈ digits, digit < base) :
    ofRadix base digits < base ^ digits.length := by
  induction digits using List.reverseRecOn with
  | nil => simp
  | append_singleton digits digit ih =>
    have hdigit : digit < base := h digit (List.mem_append_right _ List.mem_cons_self)
    have hlt := ih fun d hd => h d (List.mem_append_left _ hd)
    rw [ofRadix_concat, List.length_append, List.length_singleton, Nat.pow_succ]
    calc ofRadix base digits * base + digit < (ofRadix base digits + 1) * base := by
          rw [Nat.add_mul, Nat.one_mul]
          omega
      _ ≤ base ^ digits.length * base := Nat.mul_le_mul_right base hlt

end Radix

/-! ## Fields of bits -/

/-- The `width` bits of a number from bit `low` on. -/
def field (n low width : Nat) : Nat :=
  n / 2 ^ low % 2 ^ width

section Field

variable {n low width : Nat}

theorem field_lt (n low width : Nat) : field n low width < 2 ^ width :=
  Nat.mod_lt _ (Nat.two_pow_pos width)

theorem field_add (n low upper lower : Nat) :
    field n low (upper + lower) = field n (low + lower) upper * 2 ^ lower + field n low lower := by
  unfold field
  rw [Nat.add_comm upper lower, Nat.pow_add, Nat.mod_mul, Nat.div_div_eq_div_mul, ← Nat.pow_add,
    Nat.mul_comm, Nat.add_comm]

theorem field_div (n low upper lower : Nat) :
    field n low (upper + lower) / 2 ^ lower = field n (low + lower) upper := by
  rw [field_add, Nat.mul_comm, Nat.mul_add_div (Nat.two_pow_pos lower),
    Nat.div_eq_of_lt (field_lt n low lower), Nat.add_zero]

theorem field_mod (n low upper lower : Nat) :
    field n low (upper + lower) % 2 ^ lower = field n low lower := by
  rw [field_add, Nat.mul_comm, Nat.mul_add_mod, Nat.mod_eq_of_lt (field_lt n low lower)]

end Field

section Words

variable {w : Nat}

theorem toNat_shiftIn {a x : Nat} (hx : x < 2 ^ a) (ha : a ≤ w) (v : BitVec w) :
    (v <<< a ||| BitVec.ofNat w x).toNat = (v.toNat * 2 ^ a + x) % 2 ^ w := by
  have hword : x < 2 ^ w := Nat.lt_of_lt_of_le hx (Nat.pow_le_pow_right (by decide) ha)
  rw [BitVec.toNat_or, BitVec.toNat_shiftLeft, BitVec.toNat_ofNat, ← Nat.or_mod_two_pow,
    ← Nat.shiftLeft_add_eq_or_of_lt hx, Nat.shiftLeft_eq]

theorem mod_shiftIn {a b x : Nat} (hx : x < 2 ^ a) (hab : b + a ≤ w) (v : BitVec w) :
    (v <<< a ||| BitVec.ofNat w x).toNat % 2 ^ (b + a) = v.toNat % 2 ^ b * 2 ^ a + x := by
  rw [toNat_shiftIn hx (by omega), Nat.mod_mod_of_dvd _ (Nat.pow_dvd_pow 2 hab), Nat.add_comm b a,
    Nat.pow_add, Nat.mod_mul, Nat.mul_comm v.toNat, Nat.mul_add_mod, Nat.mod_eq_of_lt hx,
    Nat.mul_add_div (Nat.two_pow_pos a), Nat.div_eq_of_lt hx, Nat.add_zero]
  ring

/-- The lower bits of a word after others were shifted out, as a signed number. -/
theorem mod_shiftOut {k m : Nat} (hkm : k + m ≤ w) (v : BitVec w) :
    (v.sshiftRight k).toNat % 2 ^ m = v.toNat % 2 ^ (k + m) / 2 ^ k := by
  apply Nat.eq_of_testBit_eq
  intro i
  rw [Nat.testBit_mod_two_pow, Nat.testBit_div_two_pow, Nat.testBit_mod_two_pow]
  by_cases hi : i < m
  · have hbit : (v.sshiftRight k).getLsbD i = v.getLsbD (k + i) := by
      rw [BitVec.getLsbD_sshiftRight]
      have hlow : ¬ w ≤ i := by omega
      have hin : k + i < w := by omega
      simp [hlow, hin]
    simp only [BitVec.testBit_toNat, hbit, hi, Nat.add_comm]
    simp
    omega
  · simp [hi]
    omega

end Words

end HakunaMatata.Base
