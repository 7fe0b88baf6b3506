import HakunaMatata.Base.Memory
import HakunaMatata.Base.Radix

/-!
# Keys in base32, `base32.c`

`base32Encode` writes five bits of the data in a character and `base32Decode` reads them back. Both
move bits through an `int` whose upper bits are never cleared and may wrap around; only its lower
`bitsLeft` bits count. Every access to an array is checked. The digits of the data are those of a
number (`encodedDigits`), and so are the bytes of a text (`decodedBytes`). `base32Encode_eq` and
`base32Decode_eq` are what the loops compute for buffers of any size.
-/

namespace HakunaMatata.Totp

open Base

/-- `"ABCDEFGHIJKLMNOPQRSTUVWXYZ234567"`. -/
def alphabet : List UInt8 :=
  ['A', 'B', 'C', 'D', 'E', 'F', 'G', 'H', 'I', 'J', 'K', 'L', 'M', 'N', 'O', 'P', 'Q', 'R', 'S',
    'T', 'U', 'V', 'W', 'X', 'Y', 'Z', '2', '3', '4', '5', '6', '7'].map Char.toUInt8

/-- The characters that `base32_decode` skips. -/
def isSeparator (ch : UInt8) : Bool :=
  ch = 0x20 || ch = 0x09 || ch = 0x0D || ch = 0x0A || ch = 0x2D

/-- Commonly mistyped characters. -/
def correct (ch : UInt8) : UInt8 :=
  if ch = 0x30 then 0x4F
  else if ch = 0x31 then 0x4C
  else if ch = 0x38 then 0x42
  else ch

/-- One base32 digit. -/
def digit (ch : UInt8) : Option UInt8 :=
  let ch := correct ch
  if 0x41 ≤ ch ∧ ch ≤ 0x5A ∨ 0x61 ≤ ch ∧ ch ≤ 0x7A then some ((ch &&& 0x1F) - 1)
  else if 0x32 ≤ ch ∧ ch ≤ 0x37 then some (ch - (0x32 - 26))
  else none

/-- The loop of `base32_decode`. It gives no count if a character is invalid. -/
def decodeLoop (bufSize : Int) :
    List UInt8 → BitVec 32 → Nat → Nat → List UInt8 → Except Fault (Option Nat × List UInt8)
  | [], _, _, count, result =>
    if count < bufSize then .error .outOfBounds else .ok (some count, result)
  | ch :: text, buffer, bitsLeft, count, result =>
    if count < bufSize then
      if ch = 0 then .ok (some count, result)
      else if isSeparator ch then decodeLoop bufSize text buffer bitsLeft count result
      else
        match digit ch with
        | none => .ok (none, result)
        | some value =>
          let buffer := buffer <<< 5 ||| BitVec.ofNat 32 value.toNat
          let bitsLeft := bitsLeft + 5
          if 8 ≤ bitsLeft then do
            let result ← store result count
              (UInt8.ofNat (buffer.sshiftRight (bitsLeft - 8)).toNat)
            decodeLoop bufSize text buffer (bitsLeft - 8) (count + 1) result
          else decodeLoop bufSize text buffer bitsLeft count result
    else .ok (some count, result)

/-- The NUL behind the result, if there is room for it. -/
def terminate (bufSize : Int) (count : Nat) (result : List UInt8) : Except Fault (List UInt8) :=
  if count < bufSize then store result count 0 else .ok result

/-- `base32_decode`. -/
def base32Decode (encoded result : List UInt8) (bufSize : Int) :
    Except Fault (Int × List UInt8) := do
  match ← decodeLoop bufSize encoded 0 0 0 result with
  | (none, result) => return (-1, result)
  | (some count, result) =>
    let result ← terminate bufSize count result
    return (count, result)

/-- Get enough bits for a digit: the next byte, or zeros behind the last one. It gives `buffer`,
`next` and `bitsLeft`. -/
def refill (data : List UInt8) (length : Nat) (buffer : BitVec 32) (next bitsLeft : Nat) :
    Except Fault (BitVec 32 × Nat × Nat) :=
  if bitsLeft < 5 then
    if next < length then do
      let byte ← load data next
      return (buffer <<< 8 ||| BitVec.ofNat 32 byte.toNat, next + 1, bitsLeft + 8)
    else return (buffer <<< (5 - bitsLeft), next, bitsLeft + (5 - bitsLeft))
  else return (buffer, next, bitsLeft)

/-- The loop of `base32_encode`. The first argument is the room that is left in the result. -/
def encodeLoop (data : List UInt8) (length : Nat) :
    Nat → BitVec 32 → Nat → Nat → Nat → List UInt8 → Except Fault (Nat × List UInt8)
  | 0, _, _, _, count, result => .ok (count, result)
  | room + 1, buffer, next, bitsLeft, count, result =>
    if 0 < bitsLeft ∨ next < length then do
      let (buffer, next, bitsLeft) ← refill data length buffer next bitsLeft
      let index := 0x1F &&& buffer.sshiftRight (bitsLeft - 5)
      let character ← load alphabet index.toNat
      let result ← store result count character
      encodeLoop data length room buffer next (bitsLeft - 5) (count + 1) result
    else .ok (count, result)

/-- The loop with the variables that are declared before it. -/
def encodeData (data : List UInt8) (length room : Nat) (result : List UInt8) :
    Except Fault (Nat × List UInt8) :=
  if 0 < length then do
    let byte ← load data 0
    encodeLoop data length room (BitVec.ofNat 32 byte.toNat) 1 8 0 result
  else .ok (0, result)

/-- `base32_encode`. -/
def base32Encode (data : List UInt8) (length : Int) (result : List UInt8) (bufSize : Int) :
    Except Fault (Int × List UInt8) :=
  if length < 0 ∨ 2 ^ 28 < length then .ok (-1, result)
  else do
    let (count, result) ← encodeData data length.toNat bufSize.toNat result
    let result ← terminate bufSize count result
    return (count, result)

/-! ## What the loops compute -/

/-- The number that some bytes stand for. -/
def number (data : List UInt8) : Nat :=
  ofRadix 256 (data.map UInt8.toNat)

/-- How many digits there are for some bytes. -/
def digitCount (length : Nat) : Nat :=
  (8 * length + 4) / 5

/-- The digits of some bytes: those of their number, with zeros behind the last bit. -/
def encodedDigits (data : List UInt8) : List Nat :=
  toRadix 32 (digitCount data.length)
    (number data * 2 ^ (5 * digitCount data.length - 8 * data.length))

/-- The character of a digit. -/
def letter (value : Nat) : UInt8 :=
  alphabet.getD value 0

/-- The text of some bytes. -/
def encodedText (data : List UInt8) : List UInt8 :=
  (encodedDigits data).map letter

/-- The bytes of some digits. Bits that do not fill a byte are dropped. -/
def decodedBytes (digits : List Nat) : List UInt8 :=
  (toRadix 256 (5 * digits.length / 8)
    (ofRadix 32 digits / 2 ^ (5 * digits.length % 8))).map UInt8.ofNat

/-- The digits of a text, if it has only digits and separators. -/
def readDigits (text : List UInt8) : Option (List Nat) :=
  (text.filter fun ch => !isSeparator ch).mapM fun ch => (digit ch).map UInt8.toNat

/-- The memory of the result after its first bytes were written. -/
def written (out result : List UInt8) (count : Nat) : List UInt8 :=
  out.take count ++ result.drop count

section Written

variable {out result : List UInt8} {count : Nat}

theorem length_written (hout : count ≤ out.length) (hresult : count ≤ result.length) :
    (written out result count).length = result.length := by
  rw [written, List.length_append, List.length_take, List.length_drop]
  omega

theorem store_written (hout : count < out.length) (hresult : count < result.length) {x : UInt8}
    (hx : out[count]? = some x) :
    store (written out result count) count x = .ok (written out result (count + 1)) := by
  have hin : count < (written out result count).length := by
    rw [length_written (Nat.le_of_lt hout) (Nat.le_of_lt hresult)]
    exact hresult
  have hlen : (out.take count).length = count := by
    rw [List.length_take]
    omega
  rw [store_of_lt hin, written, written, List.set_append_right _ _ (by omega), hlen, Nat.sub_self,
    List.drop_eq_getElem_cons hresult, List.set_cons_zero, List.take_add_one, hx]
  simp

/-- Only a part of what is to be written. -/
theorem written_take (out result : List UInt8) (count : Nat) :
    written out result (out.take count).length =
      out.take count ++ result.drop (out.take count).length := by
  rw [written, List.length_take, ← List.take_eq_take_min]

/-- The memory of the result at the end, with a NUL if there is room for it. -/
def terminated (out result : List UInt8) (bufSize : Int) : List UInt8 :=
  out ++ if out.length < bufSize then 0 :: result.drop (out.length + 1)
    else result.drop out.length

theorem terminate_eq {bufSize : Int} (hresult : bufSize ≤ result.length) :
    terminate bufSize out.length (out ++ result.drop out.length) =
      .ok (terminated out result bufSize) := by
  unfold terminate terminated
  split
  · have hin : out.length < result.length := by omega
    have hlen : out.length < (out ++ result.drop out.length).length := by
      rw [List.length_append, List.length_drop]
      omega
    rw [store_of_lt hlen, List.set_append_right _ _ (Nat.le_refl _), Nat.sub_self,
      List.drop_eq_getElem_cons hin, List.set_cons_zero]
  · rfl

end Written

/-! ## Encoding -/

section Encode

variable {data : List UInt8} {buffer : BitVec 32} {next bits count : Nat}

theorem toNat_lt_of_mem (data : List UInt8) : ∀ n ∈ data.map UInt8.toNat, n < 256 := by
  intro n hn
  obtain ⟨byte, _, rfl⟩ := List.mem_map.mp hn
  exact byte.toNat_lt

theorem field_number {i : Nat} (hi : i < data.length) :
    field (number data) (8 * (data.length - 1 - i)) 8 = data[i].toNat := by
  have hlen : i < (data.map UInt8.toNat).length := by rwa [List.length_map]
  have hdigit := ofRadix_div_mod (toNat_lt_of_mem data) hlen
  simp only [List.getElem_map, List.length_map] at hdigit
  rw [show 256 = 2 ^ 8 from rfl, ← Nat.pow_mul] at hdigit
  exact hdigit

/-- The digits that are taken from the data alone. -/
theorem getElem?_encodedDigits (h : 5 * (count + 1) ≤ 8 * data.length) :
    (encodedDigits data)[count]? =
      some (field (number data) (8 * data.length - 5 * (count + 1)) 5) := by
  have hlt : count < digitCount data.length := by
    unfold digitCount
    omega
  have hpad : 8 * data.length ≤ 5 * digitCount data.length := by
    unfold digitCount
    omega
  have hpow : 32 ^ (digitCount data.length - 1 - count) =
      2 ^ (8 * data.length - 5 * (count + 1)) *
        2 ^ (5 * digitCount data.length - 8 * data.length) := by
    rw [show 32 = 2 ^ 5 from rfl, ← Nat.pow_mul, ← Nat.pow_add]
    congr 1
    omega
  rw [encodedDigits, getElem?_toRadix 32 hlt, hpow,
    Nat.mul_div_mul_right _ _ (Nat.two_pow_pos _)]
  rfl

/-- The digit that is filled up with zeros. -/
theorem getElem?_encodedDigits_last (hlow : 5 * count < 8 * data.length)
    (hhigh : 8 * data.length < 5 * (count + 1)) :
    (encodedDigits data)[count]? =
      some (field (number data) 0 (8 * data.length - 5 * count) *
        2 ^ (5 * (count + 1) - 8 * data.length)) := by
  have hcount : digitCount data.length = count + 1 := by
    unfold digitCount
    omega
  have hpow : 32 = 2 ^ (8 * data.length - 5 * count) * 2 ^ (5 * (count + 1) - 8 * data.length) := by
    rw [show 32 = 2 ^ 5 from rfl, ← Nat.pow_add]
    congr 1
    omega
  rw [encodedDigits, hcount, getElem?_toRadix 32 (Nat.lt_add_one count), Nat.add_sub_cancel,
    Nat.sub_self, Nat.pow_zero, Nat.div_one]
  nth_rewrite 1 [hpow]
  rw [Nat.mul_mod_mul_right, field, Nat.pow_zero, Nat.div_one]

/-- The lower bits of the buffer are the next bits of the data. -/
structure Buffered (data : List UInt8) (buffer : BitVec 32) (next bits count : Nat) : Prop where
  next_le : next ≤ data.length
  bits_eq : 8 * next = 5 * count + bits
  bits_le : bits ≤ 12
  low : buffer.toNat % 2 ^ bits = field (number data) (8 * (data.length - next)) bits

/-- There are enough bits for a digit after `refill`, unless the data is at its end. -/
theorem Buffered.refill (h : Buffered data buffer next bits count) (hbits : bits ≤ 8)
    (hmore : 5 ≤ bits ∨ next < data.length) :
    ∃ buffer' next' bits', refill data data.length buffer next bits =
      .ok (buffer', next', bits') ∧ 5 ≤ bits' ∧ Buffered data buffer' next' bits' count := by
  unfold Totp.refill
  split
  · have hnext : next < data.length := by omega
    rw [if_pos hnext, load_of_lt hnext, ok_bind]
    refine ⟨_, _, _, rfl, by omega, hnext, by have := h.bits_eq; omega, by omega, ?_⟩
    have hfield := field_number hnext
    have hlow : 8 * (data.length - (next + 1)) = 8 * (data.length - 1 - next) := by omega
    have hupper : 8 * (data.length - 1 - next) + 8 = 8 * (data.length - next) := by omega
    rw [mod_shiftIn (UInt8.toNat_lt _) (by omega), h.low, hlow, field_add, hupper, hfield]
  · exact ⟨buffer, next, bits, rfl, by omega, h⟩

theorem toNat_index (v : BitVec 32) : (0x1F &&& v : BitVec 32).toNat = v.toNat % 2 ^ 5 := by
  rw [BitVec.toNat_and, Nat.and_comm]
  exact Nat.and_two_pow_sub_one_eq_mod v.toNat 5

theorem Buffered.emit (h : Buffered data buffer next bits count) (hbits : 5 ≤ bits) :
    (encodedDigits data)[count]? =
        some (0x1F &&& buffer.sshiftRight (bits - 5) : BitVec 32).toNat ∧
      Buffered data buffer next (bits - 5) (count + 1) := by
  have hnext := h.next_le
  have heq := h.bits_eq
  have hle := h.bits_le
  have hlow := h.low
  obtain ⟨rest, rfl⟩ : ∃ rest, bits = 5 + rest := ⟨bits - 5, by omega⟩
  rw [Nat.add_sub_cancel_left]
  refine ⟨?_, hnext, by omega, by omega, ?_⟩
  · have hposition : 8 * (data.length - next) + rest = 8 * data.length - 5 * (count + 1) := by
      omega
    rw [getElem?_encodedDigits (by omega), toNat_index, mod_shiftOut (by omega),
      Nat.add_comm rest 5, hlow, field_div, hposition]
  · rw [← Nat.mod_mod_of_dvd _ (Nat.pow_dvd_pow 2 (Nat.le_add_left rest 5)), hlow, field_mod]

theorem Buffered.pad (h : Buffered data buffer next bits count) (hpos : 0 < bits) (hbits : bits < 5)
    (hend : next = data.length) :
    (encodedDigits data)[count]? =
      some (0x1F &&& (buffer <<< (5 - bits)).sshiftRight 0 : BitVec 32).toNat := by
  have heq := h.bits_eq
  have hlow := h.low
  subst hend
  have hwidth : bits + (5 - bits) = 5 := by omega
  have hzero : (0 : Nat) < 2 ^ (5 - bits) := Nat.two_pow_pos _
  have hshift := mod_shiftIn hzero (show bits + (5 - bits) ≤ 32 by omega) buffer
  rw [BitVec.or_zero, hwidth, hlow, Nat.sub_self, Nat.mul_zero, Nat.add_zero] at hshift
  rw [getElem?_encodedDigits_last (by omega) (by omega), toNat_index, BitVec.sshiftRight_zero,
    hshift, show 8 * data.length - 5 * count = bits by omega,
    show 5 * (count + 1) - 8 * data.length = 5 - bits by omega]

theorem load_letter {value : Nat} (h : value < 32) : load alphabet value = .ok (letter value) := by
  have hlen : value < alphabet.length := h
  rw [load_of_lt hlen, letter, List.getD_eq_getElem _ _ hlen]

theorem length_encodedText (data : List UInt8) :
    (encodedText data).length = digitCount data.length := by
  rw [encodedText, List.length_map, encodedDigits, length_toRadix]

theorem write_letter {result : List UInt8} {v : BitVec 32} (hresult : count < result.length)
    (hdigit : (encodedDigits data)[count]? = some (0x1F &&& v : BitVec 32).toNat) :
    ∃ character, load alphabet (0x1F &&& v : BitVec 32).toNat = .ok character ∧
      store (written (encodedText data) result count) count character =
        .ok (written (encodedText data) result (count + 1)) := by
  have hletter : (encodedText data)[count]? = some (letter (0x1F &&& v : BitVec 32).toNat) := by
    rw [encodedText, List.getElem?_map, hdigit]
    rfl
  have hvalue : (0x1F &&& v : BitVec 32).toNat < 32 := by
    rw [toNat_index]
    exact Nat.mod_lt _ (by decide)
  exact ⟨_, load_letter hvalue,
    store_written (List.getElem?_eq_some_iff.mp hletter).1 hresult hletter⟩

theorem encodeLoop_eq {result : List UInt8} {room : Nat}
    (h : Buffered data buffer next bits count) (hbits : bits ≤ 8)
    (hroom : count + room ≤ result.length) :
    encodeLoop data data.length room buffer next bits count
        (written (encodedText data) result count) =
      .ok (min (count + room) (digitCount data.length),
        written (encodedText data) result (min (count + room) (digitCount data.length))) := by
  induction room generalizing buffer next bits count with
  | zero =>
    have hcount : min (count + 0) (digitCount data.length) = count := by
      have heq := h.bits_eq
      have hnext := h.next_le
      unfold digitCount
      omega
    rw [encodeLoop, hcount]
  | succ room ih =>
    have heq := h.bits_eq
    have hnext := h.next_le
    have hin : count < result.length := by omega
    rw [encodeLoop]
    split
    · by_cases hmore : 5 ≤ bits ∨ next < data.length
      · obtain ⟨buffer', next', bits', hrefill, hbits', hbuffered⟩ := h.refill hbits hmore
        obtain ⟨hdigit, hnext'⟩ := hbuffered.emit hbits'
        obtain ⟨character, hload, hstore⟩ := write_letter hin hdigit
        have hle := hbuffered.bits_le
        have hrest := ih hnext' (by omega) (by omega)
        rw [show count + 1 + room = count + (room + 1) by omega] at hrest
        simp only [hrefill, ok_bind, hload, hstore, hrest]
      · -- the last digit is filled up, and then there are no bits left
        have hend : next = data.length := by omega
        obtain ⟨character, hload, hstore⟩ :=
          write_letter hin (h.pad (by omega) (by omega) hend)
        have hrefill : refill data data.length buffer next bits =
            .ok (buffer <<< (5 - bits), next, bits + (5 - bits)) := by
          rw [refill, if_pos (by omega), if_neg (by omega)]
          rfl
        have hcount : min (count + (room + 1)) (digitCount data.length) = count + 1 := by
          unfold digitCount
          omega
        have hdone : encodeLoop data data.length room (buffer <<< (5 - bits)) next 0 (count + 1)
            (written (encodedText data) result (count + 1)) =
              .ok (count + 1, written (encodedText data) result (count + 1)) := by
          cases room with
          | zero => rfl
          | succ room => rw [encodeLoop, if_neg (by omega)]
        have hwidth : bits + (5 - bits) - 5 = 0 := by omega
        simp only [hrefill, ok_bind, hwidth, hload, hstore, hdone, hcount]
    · have hcount : min (count + (room + 1)) (digitCount data.length) = count := by
        unfold digitCount
        omega
      rw [hcount]

theorem encodeData_eq {result : List UInt8} {room : Nat} (hresult : room ≤ result.length) :
    encodeData data data.length room result =
      .ok (((encodedText data).take room).length,
        written (encodedText data) result ((encodedText data).take room).length) := by
  have hcount : ((encodedText data).take room).length =
      min (0 + room) (digitCount data.length) := by
    rw [List.length_take, length_encodedText, Nat.zero_add]
  unfold encodeData
  split
  · rename_i hpos
    have hbuffered : Buffered data (BitVec.ofNat 32 data[0].toNat) 1 8 0 := by
      refine ⟨hpos, rfl, by decide, ?_⟩
      have hbyte := UInt8.toNat_lt data[0]
      rw [BitVec.toNat_ofNat, show 8 * (data.length - 1) = 8 * (data.length - 1 - 0) from rfl,
        field_number hpos]
      omega
    rw [load_of_lt hpos, ok_bind, hcount]
    exact encodeLoop_eq hbuffered (Nat.le_refl 8) (by omega)
  · have hnil : data = [] := List.eq_nil_of_length_eq_zero (by omega)
    subst hnil
    have htext : (encodedText []).take room = [] := List.take_nil
    rw [htext]
    rfl

/-- `base32_encode` of a whole array, with room for `bufSize` bytes: it writes the text as far as
there is room, and a NUL behind it. -/
theorem base32Encode_eq {result : List UInt8} {bufSize : Int} (hlength : data.length ≤ 2 ^ 28)
    (hresult : bufSize ≤ result.length) :
    base32Encode data data.length result bufSize =
      .ok (((encodedText data).take bufSize.toNat).length,
        terminated ((encodedText data).take bufSize.toNat) result bufSize) := by
  have hchecked : ¬ ((data.length : Int) < 0 ∨ 2 ^ 28 < (data.length : Int)) := by omega
  rw [base32Encode, if_neg hchecked, Int.toNat_natCast, encodeData_eq (by omega), ok_bind]
  simp only [written_take, terminate_eq hresult, ok_bind]
  rfl

end Encode

/-! ## Decoding -/

section Decode

variable {buffer : BitVec 32} {bits count : Nat}

/-- A byte of the decoded digits. -/
theorem getElem?_decodedBytes {digits : List Nat} (h : 8 * (count + 1) ≤ 5 * digits.length) :
    (decodedBytes digits)[count]? =
      some (UInt8.ofNat (field (ofRadix 32 digits) (5 * digits.length - 8 * (count + 1)) 8)) := by
  have hlt : count < 5 * digits.length / 8 := by omega
  have hpow : 2 ^ (5 * digits.length % 8) * 256 ^ (5 * digits.length / 8 - 1 - count) =
      2 ^ (5 * digits.length - 8 * (count + 1)) := by
    rw [show 256 = 2 ^ 8 from rfl, ← Nat.pow_mul, ← Nat.pow_add]
    congr 1
    omega
  rw [decodedBytes, List.getElem?_map, getElem?_toRadix 256 hlt, Nat.div_div_eq_div_mul, hpow]
  rfl

theorem forall_byte {p : UInt8 → Bool}
    (h : ((List.range 256).all fun n => p (UInt8.ofNat n)) = true) (ch : UInt8) : p ch = true := by
  have hch := List.all_eq_true.mp h ch.toNat (List.mem_range.mpr ch.toNat_lt)
  rwa [UInt8.ofNat_toNat] at hch

theorem digit_lt {ch value : UInt8} (h : digit ch = some value) : value.toNat < 32 := by
  have hall := @forall_byte (fun ch => (digit ch).all fun value => value.toNat < 32)
    (by decide +kernel) ch
  simpa [h] using hall

theorem readDigits_of_separator {ch : UInt8} (h : isSeparator ch = true) (text : List UInt8) :
    readDigits (ch :: text) = readDigits text := by
  simp [readDigits, h]

theorem readDigits_cons {ch : UInt8} {text : List UInt8} {digits : List Nat}
    (hch : isSeparator ch = false) (h : readDigits (ch :: text) = some digits) :
    ∃ value rest, digit ch = some value ∧ readDigits text = some rest ∧
      digits = value.toNat :: rest := by
  rw [readDigits, List.filter_cons_of_pos (by rw [hch]; rfl), List.mapM_cons] at h
  cases hvalue : digit ch with
  | none =>
    rw [hvalue] at h
    cases h
  | some value =>
    rw [hvalue] at h
    cases hrest : readDigits text with
    | none =>
      rw [readDigits] at hrest
      simp [hrest] at h
    | some rest =>
      rw [readDigits] at hrest
      simp only [hrest, Option.map_some, Option.bind_eq_bind, Option.bind_some, Option.pure_def,
        Option.some.injEq] at h
      exact ⟨value, rest, rfl, rfl, h.symm⟩

/-- The lower bits of the buffer are the bits of the digits read so far that are not written. -/
structure Unwritten (digits : List Nat) (buffer : BitVec 32) (bits read count : Nat) : Prop where
  read_le : read ≤ digits.length
  bits_eq : 5 * read = 8 * count + bits
  bits_le : bits ≤ 12
  low : buffer.toNat % 2 ^ bits = field (ofRadix 32 digits) (5 * (digits.length - read)) bits

theorem Unwritten.read {digits : List Nat} {read value : Nat}
    (hdigits : ∀ digit ∈ digits, digit < 32) (h : Unwritten digits buffer bits read count)
    (hbits : bits < 8) (hvalue : digits[read]? = some value) :
    Unwritten digits (buffer <<< 5 ||| BitVec.ofNat 32 value) (bits + 5) (read + 1) count := by
  have heq := h.bits_eq
  obtain ⟨hread, rfl⟩ := List.getElem?_eq_some_iff.mp hvalue
  have hfield := ofRadix_div_mod hdigits hread
  rw [show 32 = 2 ^ 5 from rfl, ← Nat.pow_mul] at hfield
  have hlow : 5 * (digits.length - (read + 1)) = 5 * (digits.length - 1 - read) := by omega
  have hupper : 5 * (digits.length - 1 - read) + 5 = 5 * (digits.length - read) := by omega
  refine ⟨hread, by omega, by omega, ?_⟩
  rw [mod_shiftIn (hdigits _ (List.getElem_mem hread)) (by omega), h.low, hlow, field_add, hupper]
  exact congrArg _ hfield.symm

theorem Unwritten.emit {digits : List Nat} {read : Nat}
    (h : Unwritten digits buffer bits read count) (hbits : 8 ≤ bits) :
    (decodedBytes digits)[count]? =
        some (UInt8.ofNat (buffer.sshiftRight (bits - 8)).toNat) ∧
      Unwritten digits buffer (bits - 8) read (count + 1) := by
  have heq := h.bits_eq
  have hread := h.read_le
  have hle := h.bits_le
  have hlow := h.low
  obtain ⟨rest, rfl⟩ : ∃ rest, bits = 8 + rest := ⟨bits - 8, by omega⟩
  rw [Nat.add_sub_cancel_left]
  refine ⟨?_, hread, by omega, by omega, ?_⟩
  · have hposition : 5 * (digits.length - read) + rest = 5 * digits.length - 8 * (count + 1) := by
      omega
    have hbyte : (buffer.sshiftRight rest).toNat % 2 ^ 8 =
        field (ofRadix 32 digits) (5 * digits.length - 8 * (count + 1)) 8 := by
      rw [mod_shiftOut (by omega), Nat.add_comm rest 8, hlow, field_div, hposition]
    rw [getElem?_decodedBytes (by omega), ← hbyte]
    congr 1
    exact UInt8.ofNat_mod_size
  · rw [← Nat.mod_mod_of_dvd _ (Nat.pow_dvd_pow 2 (Nat.le_add_left rest 8)), hlow, field_mod]

theorem length_decodedBytes (digits : List Nat) :
    (decodedBytes digits).length = 5 * digits.length / 8 := by
  rw [decodedBytes, List.length_map, length_toRadix]

/-- The loop ends with all the bytes it is to write: the buffer is full, or the text is at its
end. -/
theorem Unwritten.length_take {digits : List Nat} {read : Nat} {bufSize : Int}
    (h : Unwritten digits buffer bits read count) (hbits : bits < 8) (hcount : count ≤ bufSize)
    (hend : bufSize ≤ count ∨ digits.drop read = []) :
    ((decodedBytes digits).take bufSize.toNat).length = count := by
  have heq := h.bits_eq
  have hread := h.read_le
  rw [List.length_take, length_decodedBytes]
  rcases hend with hfull | hnil
  · omega
  · rw [List.drop_eq_nil_iff] at hnil
    omega

/-- The loop writes the bytes of a text as far as there is room. The text ends at its NUL. -/
theorem decodeLoop_eq {digits rest : List Nat} {text result tail : List UInt8} {bufSize : Int}
    {read : Nat} (hdigits : ∀ digit ∈ digits, digit < 32)
    (h : Unwritten digits buffer bits read count) (hbits : bits < 8)
    (htext : readDigits text = some rest) (hrest : digits.drop read = rest)
    (hcount : count ≤ bufSize) (hresult : bufSize ≤ result.length) :
    decodeLoop bufSize (text ++ 0 :: tail) buffer bits count
        (written (decodedBytes digits) result count) =
      .ok (some ((decodedBytes digits).take bufSize.toNat).length,
        written (decodedBytes digits) result
          ((decodedBytes digits).take bufSize.toNat).length) := by
  induction text generalizing buffer bits read count rest with
  | nil =>
    cases htext
    rw [h.length_take hbits hcount (.inr hrest), List.nil_append, decodeLoop]
    split
    · rfl
    · rfl
  | cons ch text ih =>
    rw [List.cons_append, decodeLoop]
    split
    · rename_i hroom
      by_cases hsep : isSeparator ch = true
      · have hzero : ch ≠ 0 := by
          rintro rfl
          exact absurd hsep (by decide)
        rw [if_neg hzero, if_pos hsep]
        rw [readDigits_of_separator hsep] at htext
        exact ih h hbits htext hrest hcount
      · rw [Bool.not_eq_true] at hsep
        obtain ⟨value, rest', hvalue, htext', rfl⟩ := readDigits_cons hsep htext
        have hzero : ch ≠ 0 := by
          rintro rfl
          have hnone : digit 0 = none := by decide
          rw [hnone] at hvalue
          cases hvalue
        have hat : digits[read]? = some value.toNat := by
          rw [← List.head?_drop, hrest]
          rfl
        have hrest' : digits.drop (read + 1) = rest' := by
          rw [← List.drop_drop, hrest]
          rfl
        have hnext := h.read hdigits hbits hat
        simp only [if_neg hzero, hsep, Bool.false_eq_true, if_false, hvalue]
        split
        · rename_i hfull
          obtain ⟨hbyte, hunwritten⟩ := hnext.emit hfull
          have hin := (List.getElem?_eq_some_iff.mp hbyte).1
          rw [store_written hin (by omega) hbyte, ok_bind]
          exact ih hunwritten (by omega) htext' hrest' (by omega)
        · exact ih hnext (by omega) htext' hrest' hcount
    · rw [h.length_take hbits hcount (.inl (by omega))]

theorem readDigits_lt {text : List UInt8} {digits : List Nat}
    (h : readDigits text = some digits) : ∀ digit ∈ digits, digit < 32 := by
  induction text generalizing digits with
  | nil =>
    cases h
    exact fun _ hdigit => absurd hdigit List.not_mem_nil
  | cons ch text ih =>
    by_cases hsep : isSeparator ch = true
    · rw [readDigits_of_separator hsep] at h
      exact ih h
    · rw [Bool.not_eq_true] at hsep
      obtain ⟨value, rest, hvalue, hrest, rfl⟩ := readDigits_cons hsep h
      intro digit hdigit
      rcases List.mem_cons.mp hdigit with rfl | hmem
      · exact digit_lt hvalue
      · exact ih hrest digit hmem

/-- `base32_decode` of a text of digits and separators: it writes the bytes as far as there is
room, and a NUL behind them. -/
theorem base32Decode_eq {digits : List Nat} {text : List UInt8}
    (htext : readDigits text = some digits) (tail : List UInt8) {result : List UInt8}
    {bufSize : Int} (hpos : 0 ≤ bufSize)
    (hresult : bufSize ≤ result.length) :
    base32Decode (text ++ 0 :: tail) result bufSize =
      .ok (((decodedBytes digits).take bufSize.toNat).length,
        terminated ((decodedBytes digits).take bufSize.toNat) result bufSize) := by
  have hstart : Unwritten digits 0 0 0 0 := by
    refine ⟨Nat.zero_le _, rfl, by decide, ?_⟩
    rw [field, Nat.pow_zero, Nat.mod_one, Nat.mod_one]
  have hloop := @decodeLoop_eq 0 0 0 digits digits text result tail bufSize 0
    (readDigits_lt htext) hstart (by decide) htext rfl hpos hresult
  have hwritten : written (decodedBytes digits) result 0 = result := rfl
  rw [hwritten] at hloop
  rw [base32Decode, hloop, ok_bind]
  simp only [written_take, terminate_eq hresult, ok_bind]
  rfl

end Decode

end HakunaMatata.Totp
