import Mathlib.Data.List.Basic
import Mathlib.Data.Nat.Basic
import HakunaMatata.Base.Memory

/-!
# Words as bytes in memory

A number of a fixed width is stored as a list of bytes, in the byte order of the host.
`loadWord_storeWord` reads a stored number back, on both kinds of host. `bytesAt` is the checked
access to a part of a byte array, and `storeAt` the checked write over one.
-/

namespace HakunaMatata.Base

/-- The byte order of a host. -/
inductive Endian where
  | little
  | big
  deriving DecidableEq, Repr

/-- The `width` lowest bytes of a number, the lowest first. -/
def lowBytes : Nat → Nat → List UInt8
  | 0, _ => []
  | width + 1, n => UInt8.ofNat n :: lowBytes width (n / 256)

/-- The number with these bytes, the lowest first. -/
def ofLowBytes : List UInt8 → Nat
  | [] => 0
  | b :: bytes => b.toNat + 256 * ofLowBytes bytes

/-- The bytes of a number of `width` bytes in memory. -/
def storeWord (endian : Endian) (width n : Nat) : List UInt8 :=
  match endian with
  | .little => lowBytes width n
  | .big => (lowBytes width n).reverse

/-- The number that stands in memory as these bytes. -/
def loadWord (endian : Endian) (bytes : List UInt8) : Nat :=
  match endian with
  | .little => ofLowBytes bytes
  | .big => ofLowBytes bytes.reverse

@[simp] theorem length_lowBytes (width n : Nat) : (lowBytes width n).length = width := by
  induction width generalizing n with
  | zero => rfl
  | succ width ih => simp [lowBytes, ih]

@[simp] theorem length_storeWord (endian : Endian) (width n : Nat) :
    (storeWord endian width n).length = width := by
  cases endian with
  | little => exact length_lowBytes width n
  | big => simp [storeWord]

theorem ofLowBytes_lowBytes {width n : Nat} (h : n < 256 ^ width) :
    ofLowBytes (lowBytes width n) = n := by
  induction width generalizing n with
  | zero =>
    rw [Nat.pow_zero] at h
    simp only [lowBytes, ofLowBytes]
    omega
  | succ width ih =>
    have hrest : n / 256 < 256 ^ width := by
      rw [Nat.pow_succ] at h
      omega
    have hbyte : (UInt8.ofNat n).toNat = n % 256 := by simp
    simp only [lowBytes, ofLowBytes, ih hrest, hbyte]
    omega

theorem loadWord_storeWord (endian : Endian) {width n : Nat} (h : n < 256 ^ width) :
    loadWord endian (storeWord endian width n) = n := by
  cases endian with
  | little => exact ofLowBytes_lowBytes h
  | big =>
    simp only [loadWord, storeWord, List.reverse_reverse]
    exact ofLowBytes_lowBytes h

theorem storeWord_inj {endian : Endian} {width m n : Nat} (hm : m < 256 ^ width)
    (hn : n < 256 ^ width) (h : storeWord endian width m = storeWord endian width n) : m = n := by
  rw [← loadWord_storeWord endian hm, h, loadWord_storeWord endian hn]

/-- Bytes are those of the number they denote. -/
theorem lowBytes_ofLowBytes (bytes : List UInt8) :
    lowBytes bytes.length (ofLowBytes bytes) = bytes := by
  induction bytes with
  | nil => rfl
  | cons b bytes ih =>
    have hlt : b.toNat < 256 := b.toNat_lt
    have hhigh : (b.toNat + 256 * ofLowBytes bytes) / 256 = ofLowBytes bytes := by omega
    have hlow : UInt8.ofNat (b.toNat + 256 * ofLowBytes bytes) = b := by
      apply UInt8.toNat_inj.mp
      rw [UInt8.toNat_ofNat']
      omega
    rw [List.length_cons, ofLowBytes, lowBytes, hhigh, hlow, ih]

theorem storeWord_loadWord (endian : Endian) {bytes : List UInt8} {width : Nat}
    (h : bytes.length = width) : storeWord endian width (loadWord endian bytes) = bytes := by
  subst h
  cases endian with
  | little => exact lowBytes_ofLowBytes bytes
  | big =>
    simp only [storeWord, loadWord]
    rw [← List.length_reverse, lowBytes_ofLowBytes, List.reverse_reverse]

theorem ofLowBytes_lt (bytes : List UInt8) : ofLowBytes bytes < 256 ^ bytes.length := by
  induction bytes with
  | nil => simp [ofLowBytes]
  | cons b bytes ih =>
    have hbyte : b.toNat < 256 := b.toNat_lt
    rw [ofLowBytes, List.length_cons, Nat.pow_succ]
    omega

theorem loadWord_lt (endian : Endian) (bytes : List UInt8) :
    loadWord endian bytes < 256 ^ bytes.length := by
  cases endian with
  | little => exact ofLowBytes_lt bytes
  | big => simpa [loadWord] using ofLowBytes_lt bytes.reverse

/-- An operation on numbers of this many bytes that puts their bytes into the reverse order. -/
structure ByteSwap (width : Nat) where
  swap : Nat → Nat
  reverses : ∀ bytes : List UInt8, bytes.length = width →
    swap (loadWord .little bytes) = loadWord .little bytes.reverse

/-- The operation that goes through the bytes in memory. -/
def byteSwap (width : Nat) : ByteSwap width where
  swap n := loadWord .little (storeWord .little width n).reverse
  reverses bytes h := by rw [storeWord_loadWord .little h]

/-- A word in network order is read by a little-endian host and then swapped. -/
theorem ByteSwap.swap_loadWord {width : Nat} (b : ByteSwap width) {bytes : List UInt8}
    (h : bytes.length = width) : b.swap (loadWord .little bytes) = loadWord .big bytes :=
  b.reverses bytes h

/-- An operation that takes each bit from the byte on the other side is its own inverse. -/
theorem swap_swap {n width : Nat} (hn : n = 8 * width) {swap : BitVec n → BitVec n}
    (hswap : ∀ v i, i < n → (swap v).getLsbD i = v.getLsbD (8 * (width - 1 - i / 8) + i % 8))
    (v : BitVec n) : swap (swap v) = v := by
  apply BitVec.eq_of_getLsbD_eq
  intro i hi
  rw [hswap _ _ hi, hswap _ _ (by omega)]
  congr 1
  omega

/-- The `count` bytes of an array from the offset on. -/
def bytesAt (bytes : List UInt8) (offset count : Nat) : Except Fault (List UInt8) :=
  if offset + count ≤ bytes.length then .ok ((bytes.drop offset).take count)
  else .error .outOfBounds

theorem bytesAt_append {front middle : List UInt8} {offset count : Nat}
    (hfront : front.length = offset) (hmiddle : middle.length = count) (rest : List UInt8) :
    bytesAt (front ++ (middle ++ rest)) offset count = .ok middle := by
  subst hfront hmiddle
  unfold bytesAt
  rw [if_pos (by simp), List.drop_left, List.take_left]

theorem bytesAt_of_le {bytes : List UInt8} {offset count : Nat}
    (h : offset + count ≤ bytes.length) :
    bytesAt bytes offset count = .ok ((bytes.drop offset).take count) :=
  if_pos h

theorem bytesAt_eq_ok_iff {bytes part : List UInt8} {offset count : Nat} :
    bytesAt bytes offset count = .ok part ↔
      offset + count ≤ bytes.length ∧ part = (bytes.drop offset).take count := by
  unfold bytesAt
  by_cases hle : offset + count ≤ bytes.length
  · simp [hle, eq_comm]
  · simp [hle]

section Store

variable {array array' bytes : List UInt8} {offset : Nat}

/-- Write bytes over a part of an array, from the offset on. -/
def storeAt (array : List UInt8) (offset : Nat) (bytes : List UInt8) :
    Except Fault (List UInt8) :=
  if offset + bytes.length ≤ array.length then
    .ok (array.take offset ++ (bytes ++ array.drop (offset + bytes.length)))
  else .error .outOfBounds

theorem storeAt_eq_ok_iff :
    storeAt array offset bytes = .ok array' ↔ offset + bytes.length ≤ array.length ∧
      array' = array.take offset ++ (bytes ++ array.drop (offset + bytes.length)) := by
  unfold storeAt
  by_cases hle : offset + bytes.length ≤ array.length
  · simp [hle, eq_comm]
  · simp [hle]

/-- A write behind a part of known length replaces what follows it. -/
theorem storeAt_append {front tail : List UInt8} (hfront : front.length = offset)
    (htail : bytes.length ≤ tail.length) :
    storeAt (front ++ tail) offset bytes = .ok (front ++ bytes ++ tail.drop bytes.length) := by
  subst hfront
  rw [storeAt_eq_ok_iff, List.length_append, List.take_left, List.drop_length_add_append,
    List.append_assoc]
  exact ⟨Nat.add_le_add_left htail _, rfl⟩

theorem length_of_storeAt (h : storeAt array offset bytes = .ok array') :
    array'.length = array.length := by
  obtain ⟨hle, rfl⟩ := storeAt_eq_ok_iff.mp h
  simp only [List.length_append, List.length_take, List.length_drop]
  omega

theorem drop_of_storeAt (h : storeAt array offset bytes = .ok array') :
    array'.drop offset = bytes ++ array.drop (offset + bytes.length) := by
  obtain ⟨hle, rfl⟩ := storeAt_eq_ok_iff.mp h
  exact List.drop_left' (by rw [List.length_take]; omega)

/-- The bytes before the written ones are untouched. -/
theorem slice_of_storeAt (h : storeAt array offset bytes = .ok array') {start count : Nat}
    (hbefore : start + count ≤ offset) :
    (array'.drop start).take count = (array.drop start).take count := by
  obtain ⟨hle, rfl⟩ := storeAt_eq_ok_iff.mp h
  have hfront : (array.take offset).length = offset := by
    rw [List.length_take]
    omega
  rw [List.drop_append_of_le_length (by omega),
    List.take_append_of_le_length (by rw [List.length_drop]; omega), List.drop_take,
    List.take_take, Nat.min_eq_left (by omega)]

end Store

end HakunaMatata.Base
