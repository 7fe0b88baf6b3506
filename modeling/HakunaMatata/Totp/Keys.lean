import HakunaMatata.Totp.Base32

/-!
# A key that is typed in again

The text that `base32_encode` writes is meant to be read and typed by people. `Retyped` is what may
become of it: separators anywhere, small letters, and the digits that look like a letter.
`base32_round_trip` says that such a text is decoded to the key it was made of.
-/

namespace HakunaMatata.Totp

open Base

/-- A character that may be typed for another one: itself, a small letter, or a digit that looks
like it. -/
def typedFor (ch typed : UInt8) : Bool :=
  typed = ch || (0x41 ≤ ch && typed = ch + 0x20) || (ch = 0x4F && typed = 0x30) ||
    (ch = 0x4C && typed = 0x31) || (ch = 0x42 && typed = 0x38)

/-- A text that is typed for another one. -/
inductive Retyped : List UInt8 → List UInt8 → Prop where
  | nil : Retyped [] []
  | separator {text typed : List UInt8} {ch : UInt8} :
      isSeparator ch = true → Retyped text typed → Retyped text (ch :: typed)
  | character {text typed : List UInt8} {ch ch' : UInt8} :
      typedFor ch ch' = true → Retyped text typed → Retyped (ch :: text) (ch' :: typed)

section Digits

theorem digit_typedFor {value : Nat} (hvalue : value < 32) {ch : UInt8}
    (h : typedFor (letter value) ch = true) :
    isSeparator ch = false ∧ digit ch = some (UInt8.ofNat value) := by
  have hall : ((List.range 32).all fun value => (List.range 256).all fun ch =>
      !typedFor (letter value) (UInt8.ofNat ch) ||
        (!isSeparator (UInt8.ofNat ch) && digit (UInt8.ofNat ch) = some (UInt8.ofNat value))) =
          true := by
    decide +kernel
  have hone := List.all_eq_true.mp hall value (List.mem_range.mpr hvalue)
  have hch := @forall_byte (fun ch => !typedFor (letter value) ch ||
    (!isSeparator ch && digit ch = some (UInt8.ofNat value))) hone ch
  simpa [h] using hch

/-- A text that is typed for the characters of some digits has these digits. -/
theorem readDigits_retyped {digits : List Nat} {text typed : List UInt8}
    (hdigits : ∀ digit ∈ digits, digit < 32) (h : Retyped text typed)
    (htext : text = digits.map letter) : readDigits typed = some digits := by
  induction h generalizing digits with
  | nil =>
    rw [List.map_eq_nil_iff.mp htext.symm]
    rfl
  | separator hsep _ ih =>
    rw [readDigits_of_separator hsep]
    exact ih hdigits htext
  | @character text typed ch ch' htyped _ ih =>
    cases digits with
    | nil => cases htext
    | cons value digits =>
      obtain ⟨rfl, htail⟩ := List.cons.inj htext
      have hvalue := hdigits value List.mem_cons_self
      obtain ⟨hsep, hdigit⟩ := digit_typedFor hvalue htyped
      have hrest := ih (fun d hd => hdigits d (List.mem_cons_of_mem _ hd)) htail
      have hnat : (UInt8.ofNat value).toNat = value := by
        rw [UInt8.toNat_ofNat']
        omega
      rw [readDigits, List.filter_cons_of_pos (by rw [hsep]; rfl), List.mapM_cons, hdigit]
      rw [readDigits] at hrest
      simp [hrest, hnat]

theorem encodedDigits_lt (data : List UInt8) : ∀ digit ∈ encodedDigits data, digit < 32 := by
  intro digit hdigit
  obtain ⟨i, hi, rfl⟩ := List.getElem_of_mem hdigit
  have hlen : i < digitCount data.length := by
    rwa [encodedDigits, length_toRadix] at hi
  have hget := getElem?_toRadix 32 hlen
    (number data * 2 ^ (5 * digitCount data.length - 8 * data.length))
  rw [← encodedDigits, List.getElem?_eq_getElem hi] at hget
  rw [Option.some.inj hget]
  exact Nat.mod_lt _ (by decide)

theorem decodedBytes_encodedDigits (data : List UInt8) :
    decodedBytes (encodedDigits data) = data := by
  have hlen : (encodedDigits data).length = digitCount data.length := by
    rw [encodedDigits, length_toRadix]
  have hbytes : 5 * digitCount data.length / 8 = data.length := by
    unfold digitCount
    omega
  have hpad : 5 * digitCount data.length % 8 = 5 * digitCount data.length - 8 * data.length := by
    unfold digitCount
    omega
  have hnumber : number data < 2 ^ (8 * data.length) := by
    have hlt := ofRadix_lt (toNat_lt_of_mem data)
    rwa [List.length_map, show 256 = 2 ^ 8 from rfl, ← Nat.pow_mul] at hlt
  have hfits : number data * 2 ^ (5 * digitCount data.length - 8 * data.length) <
      32 ^ digitCount data.length := by
    have hpow : 32 ^ digitCount data.length = 2 ^ (8 * data.length) *
        2 ^ (5 * digitCount data.length - 8 * data.length) := by
      rw [show 32 = 2 ^ 5 from rfl, ← Nat.pow_mul, ← Nat.pow_add]
      congr 1
      unfold digitCount
      omega
    rw [hpow]
    exact Nat.mul_lt_mul_of_pos_right hnumber (Nat.two_pow_pos _)
  have hvalue : ofRadix 32 (encodedDigits data) =
      number data * 2 ^ (5 * digitCount data.length - 8 * data.length) := by
    rw [encodedDigits, ofRadix_toRadix, Nat.mod_eq_of_lt hfits]
  have hdigits := toRadix_ofRadix (toNat_lt_of_mem data)
  rw [List.length_map] at hdigits
  rw [decodedBytes, hlen, hbytes, hpad, hvalue, Nat.mul_div_cancel _ (Nat.two_pow_pos _), number,
    hdigits, List.map_map]
  have hid : UInt8.ofNat ∘ UInt8.toNat = id := funext fun _ => UInt8.ofNat_toNat
  rw [hid, List.map_id]

end Digits

/-- The round trip of a key, for arrays of any size: there is one text of the data, with the
characters of the alphabet. `base32_encode` writes it as far as there is room. Whatever is typed
for this text, `base32_decode` writes the data, again as far as there is room. Both put a NUL behind
what they write if it fits, leave the rest of their array alone, and return how much they wrote. -/
theorem base32_round_trip {data : List UInt8} (hlength : data.length ≤ 2 ^ 28) :
    ∃ text : List UInt8, text.length = digitCount data.length ∧ (∀ ch ∈ text, ch ∈ alphabet) ∧
      (∀ (memory : List UInt8) (bufSize : Int), bufSize ≤ memory.length →
        base32Encode data data.length memory bufSize =
          .ok ((text.take bufSize.toNat).length,
            terminated (text.take bufSize.toNat) memory bufSize)) ∧
      ∀ typed, Retyped text typed → ∀ (tail result : List UInt8) (bufSize : Int), 0 ≤ bufSize →
        bufSize ≤ result.length →
        base32Decode (typed ++ 0 :: tail) result bufSize =
          .ok ((data.take bufSize.toNat).length,
            terminated (data.take bufSize.toNat) result bufSize) := by
  refine ⟨encodedText data, length_encodedText data, fun ch hch => ?_, fun memory bufSize hsize =>
    base32Encode_eq hlength hsize, fun typed htyped tail result bufSize hpos hsize => ?_⟩
  · obtain ⟨value, hvalue, rfl⟩ := List.mem_map.mp hch
    have hlt : value < alphabet.length := encodedDigits_lt data value hvalue
    rw [letter, List.getD_eq_getElem _ _ hlt]
    exact List.getElem_mem hlt
  · have hread := readDigits_retyped (encodedDigits_lt data) htyped rfl
    have hdecode := base32Decode_eq hread tail hpos hsize
    rwa [decodedBytes_encodedDigits] at hdecode

/-- A key of two bytes. -/
def shortKey : List UInt8 := [0xAB, 0xCD]

/-- The text of a short key has four characters. -/
theorem base32_round_trip_shortKey :
    ∃ text : List UInt8, text.length = 4 ∧ (∀ ch ∈ text, ch ∈ alphabet) ∧
      (∀ (memory : List UInt8) (bufSize : Int), bufSize ≤ memory.length →
        base32Encode shortKey 2 memory bufSize =
          .ok ((text.take bufSize.toNat).length,
            terminated (text.take bufSize.toNat) memory bufSize)) ∧
      ∀ typed, Retyped text typed → ∀ (tail result : List UInt8) (bufSize : Int), 0 ≤ bufSize →
        bufSize ≤ result.length →
        base32Decode (typed ++ 0 :: tail) result bufSize =
          .ok ((shortKey.take bufSize.toNat).length,
            terminated (shortKey.take bufSize.toNat) result bufSize) :=
  @base32_round_trip shortKey (by decide)

end HakunaMatata.Totp
