import HakunaMatata.Base.Words

/-!
# Integers, names and byte buffers of a Java program

The parts of the Java library that a codec uses: an `int` as four bytes in network order, a
text as UTF-8, and `java.nio.ByteBuffer` with its checks. A buffer that is written carries the
proof that it holds no more than its capacity; a buffer that is read is the list of the bytes
that remain. What the checks throw is a `Thrown`.
-/

namespace HakunaMatata.Base.Java

/-- What ends a computation early: an exception, or a loop that does not end. -/
inductive Thrown where
  | illegalArgument (message : String)
  | bufferOverflow
  | bufferUnderflow
  | indexOutOfBounds
  | negativeArraySize
  | decoderException (message : String)
  | diverged
  deriving DecidableEq, Repr

/-! ## Integers -/

/-- The bytes of an `int`, in network order. -/
def intBytes (n : Int) : List UInt8 :=
  storeWord .big 4 (n % 2 ^ 32).toNat

/-- The `int` with these four bytes. -/
def intOf (bytes : List UInt8) : Int :=
  i32 (loadWord .big bytes)

@[simp] theorem length_intBytes (n : Int) : (intBytes n).length = 4 :=
  length_storeWord ..

theorem intOf_intBytes {n : Nat} (h : n < 2 ^ 31) : intOf (intBytes n) = n := by
  have hword : ((n : Int) % 2 ^ 32).toNat = n := by omega
  have hload : loadWord .big (storeWord .big 4 n) = n := loadWord_storeWord .big (by omega)
  rw [intOf, intBytes, hword, hload, i32_of_lt (by omega) (by omega)]

/-! ## Names -/

/-- All characters of the text are ASCII. -/
def Ascii (text : String) : Prop :=
  ∀ c ∈ text.toList, c.toNat < 128

instance (text : String) : Decidable (Ascii text) :=
  List.decidableBAll _ _

/-- `text.length()`, the number of UTF-16 units: one for each character, and a second one for each
character that needs a surrogate pair. -/
def length16 (text : String) : Nat :=
  text.toList.length + text.toList.countP fun c => 2 ^ 16 ≤ c.toNat

/-- `text.getBytes` in UTF-8. -/
def utf8 (text : String) : List UInt8 :=
  text.toList.flatMap String.utf8EncodeChar

theorem utf8EncodeChar_of_lt {c : Char} (h : c.toNat < 128) :
    String.utf8EncodeChar c = [UInt8.ofNat c.toNat] := by
  have hle : c.toNat ≤ 127 := Nat.le_of_lt_succ h
  simp [String.utf8EncodeChar, hle]

theorem utf8_of_ascii {text : String} (h : Ascii text) :
    utf8 text = text.toList.map fun c => UInt8.ofNat c.toNat := by
  unfold utf8
  rw [← List.flatMap_singleton' (List.map _ _), List.flatMap_map]
  exact List.flatMap_congr fun c hc => utf8EncodeChar_of_lt (h c hc)

theorem length_utf8 {text : String} (h : Ascii text) : (utf8 text).length = length16 text := by
  have hpairs : text.toList.countP (fun c => 2 ^ 16 ≤ c.toNat) = 0 := by
    refine List.countP_eq_zero.mpr fun c hc => ?_
    have hlt := h c hc
    simp only [decide_eq_true_eq]
    omega
  rw [utf8_of_ascii h, length16, hpairs, List.length_map, Nat.add_zero]

/-- The text with one character for each byte, which is `new String(bytes)` for ASCII bytes. -/
def asciiString (bytes : List UInt8) : String :=
  String.ofList (bytes.map fun b => Char.ofNat b.toNat)

theorem asciiString_utf8 {text : String} (h : Ascii text) : asciiString (utf8 text) = text := by
  have hchars : text.toList.map ((fun b : UInt8 => Char.ofNat b.toNat) ∘ fun c =>
      UInt8.ofNat c.toNat) = text.toList.map id := by
    refine List.map_congr_left fun c hc => ?_
    have hlt := h c hc
    have hbyte : (UInt8.ofNat c.toNat).toNat = c.toNat := by
      rw [UInt8.toNat_ofNat']
      omega
    rw [Function.comp_apply, hbyte, Char.ofNat_toNat, id]
  rw [asciiString, utf8_of_ascii h, List.map_map, hchars, List.map_id, String.ofList_toList]

/-! ## Byte buffers -/

/-- A buffer that is being filled. -/
structure ByteBuffer where
  capacity : Nat
  written : List UInt8
  fits : written.length ≤ capacity

/-- `ByteBuffer.allocate`. -/
def ByteBuffer.allocate (capacity : Int) : Except Thrown ByteBuffer :=
  if capacity < 0 then .error (.illegalArgument "capacity < 0")
  else .ok ⟨capacity.toNat, [], Nat.zero_le _⟩

/-- `put` of an array. -/
def ByteBuffer.put (buffer : ByteBuffer) (bytes : List UInt8) : Except Thrown ByteBuffer :=
  if h : (buffer.written ++ bytes).length ≤ buffer.capacity then
    .ok ⟨buffer.capacity, buffer.written ++ bytes, h⟩
  else .error .bufferOverflow

/-- `array`: places that were not written are 0. -/
def ByteBuffer.array (buffer : ByteBuffer) : List UInt8 :=
  buffer.written ++ List.replicate (buffer.capacity - buffer.written.length) 0

/-- `get` of an array with this many bytes, from the bytes that remain. -/
def get (count : Int) (remaining : List UInt8) : Except Thrown (List UInt8 × List UInt8) :=
  if count < 0 then .error .negativeArraySize
  else if remaining.length < count.toNat then .error .bufferUnderflow
  else .ok (remaining.take count.toNat, remaining.drop count.toNat)

/-- `getInt`. -/
def getInt (remaining : List UInt8) : Except Thrown (Int × List UInt8) := do
  let taken ← get 4 remaining
  pure (intOf taken.1, taken.2)

theorem get_append {count : Int} {bytes : List UInt8} (h : (bytes.length : Int) = count)
    (rest : List UInt8) : get count (bytes ++ rest) = .ok (bytes, rest) := by
  subst h
  have hlen : (bytes ++ rest).length = bytes.length + rest.length := List.length_append
  rw [get, if_neg (by omega), if_neg (by omega), Int.toNat_natCast, List.take_left, List.drop_left]

theorem getInt_append {n : Nat} (h : n < 2 ^ 31) (rest : List UInt8) :
    getInt (intBytes n ++ rest) = .ok (n, rest) := by
  rw [getInt, get_append (by rw [length_intBytes]; rfl), ok_bind, intOf_intBytes h]
  rfl

theorem ByteBuffer.put_eq_ok {buffer : ByteBuffer} {bytes : List UInt8}
    (h : (buffer.written ++ bytes).length ≤ buffer.capacity) :
    buffer.put bytes = .ok ⟨buffer.capacity, buffer.written ++ bytes, h⟩ :=
  dif_pos h

theorem ByteBuffer.array_of_full {buffer : ByteBuffer}
    (h : buffer.written.length = buffer.capacity) : buffer.array = buffer.written := by
  rw [ByteBuffer.array, h, Nat.sub_self, List.replicate_zero, List.append_nil]

end HakunaMatata.Base.Java
