import Mathlib.Data.List.TakeWhile
import Mathlib.Tactic.IntervalCases
import HakunaMatata.Libevent.Model

/-!
# Decoding an encoded object gives the object back

Storing an integer in network byte order and reading it back is the identity on both kinds of
host, because exchanging the bytes twice is. Read `get32_put32` first. `decodeText_of_text` is
the same for strings, and `codec_round_trip` puts the three layouts together. Objects are compared
by their `value`, in which a character array counts as the string it holds.
-/

namespace HakunaMatata.Libevent

open Base

section ByteOrder

/-- Each bit comes from the byte on the other side. -/
theorem utilEx32_bit (v : BitVec 32) (i : Nat) (h : i < 32) :
    (utilEx32 v).getLsbD i = v.getLsbD (8 * (4 - 1 - i / 8) + i % 8) := by
  unfold utilEx32
  interval_cases i <;> simp

theorem utilEx64_bit (v : BitVec 64) (i : Nat) (h : i < 64) :
    (utilEx64 v).getLsbD i = v.getLsbD (8 * (8 - 1 - i / 8) + i % 8) := by
  unfold utilEx64
  interval_cases i <;> simp

theorem utilHton32_utilHton32 (endian : Endian) (v : BitVec 32) :
    utilHton32 endian (utilHton32 endian v) = v := by
  cases endian with
  | big => rfl
  | little => exact swap_swap (show 32 = 8 * 4 from rfl) utilEx32_bit v

theorem utilHton64_utilHton64 (endian : Endian) (v : BitVec 64) :
    utilHton64 endian (utilHton64 endian v) = v := by
  cases endian with
  | big => rfl
  | little => exact swap_swap (show 64 = 8 * 8 from rfl) utilEx64_bit v

variable (endian : Endian) {front : List UInt8} {offset : Nat} (rest : List UInt8)

@[simp] theorem length_put32 (v : BitVec 32) : (put32 endian v).length = 4 :=
  length_storeWord endian 4 _

@[simp] theorem length_put64 (v : BitVec 64) : (put64 endian v).length = 8 :=
  length_storeWord endian 8 _

theorem get32_put32 (hfront : front.length = offset) (v : BitVec 32) :
    get32 endian (front ++ (put32 endian v ++ rest)) offset = .ok v := by
  unfold get32
  rw [bytesAt_append hfront (length_put32 endian v)]
  unfold put32
  simp only [bind, Except.bind, pure, Except.pure]
  rw [loadWord_storeWord endian (utilHton32 endian v).isLt, BitVec.ofNat_toNat,
    BitVec.setWidth_eq, utilHton32_utilHton32]

theorem get64_put64 (hfront : front.length = offset) (v : BitVec 64) :
    get64 endian (front ++ (put64 endian v ++ rest)) offset = .ok v := by
  unfold get64
  rw [bytesAt_append hfront (length_put64 endian v)]
  unfold put64
  simp only [bind, Except.bind, pure, Except.pure]
  rw [loadWord_storeWord endian (utilHton64 endian v).isLt, BitVec.ofNat_toNat,
    BitVec.setWidth_eq, utilHton64_utilHton64]

end ByteOrder

section Strings

/-- The array holds a string that ends before its last character. -/
def CharBuf.Terminated (buf : CharBuf) : Prop :=
  strnlen buf < 32

theorem take_strnlen (buf : CharBuf) : buf.bytes.take (strnlen buf) = buf.text :=
  (List.prefix_iff_eq_take.mp (List.takeWhile_prefix _)).symm

theorem ne_zero_of_mem_text {buf : CharBuf} {c : UInt8} (h : c ∈ buf.text) : c ≠ 0 := by
  simpa using List.mem_takeWhile_imp h

theorem CharBuf.write_of_le (buf : CharBuf) (offset : Nat) (bytes : List UInt8)
    (h : offset + bytes.length ≤ 32) :
    ∃ buf' : CharBuf, buf.write offset bytes = .ok buf' ∧
      buf'.bytes =
        buf.bytes.take offset ++ bytes ++ buf.bytes.drop (offset + bytes.length) := by
  unfold CharBuf.write
  rw [dif_pos h]
  exact ⟨_, rfl, rfl⟩

theorem text_of_bytes {buf : CharBuf} {text rest : List UInt8} (htext : ∀ c ∈ text, c ≠ 0)
    (h : buf.bytes = text ++ 0 :: rest) : buf.text = text := by
  unfold CharBuf.text
  rw [h, List.takeWhile_append_of_pos (by simpa using htext)]
  simp

theorem decodeText_of_text (fresh : CharBuf) (front text rest : List UInt8) {offset : Nat}
    (hfront : front.length = offset) (htext : ∀ c ∈ text, c ≠ 0) (hlen : text.length < 32) :
    ∃ buf, decodeText (front ++ (text ++ rest)) fresh offset (BitVec.ofNat 32 text.length) =
      .ok buf ∧ buf.text = text := by
  have hnat : (BitVec.ofNat 32 text.length).toNat = text.length := by
    rw [BitVec.toNat_ofNat]
    omega
  unfold decodeText
  by_cases hzero : BitVec.ofNat 32 text.length = 0
  · have hnil : text = [] := by
      rw [hzero] at hnat
      exact List.eq_nil_of_length_eq_zero hnat.symm
    obtain ⟨buf, hwrite, hbytes⟩ := fresh.write_of_le 0 [0] (by decide)
    rw [if_pos hzero]
    exact ⟨buf, hwrite, text_of_bytes htext (by rw [hbytes, hnil]; rfl)⟩
  · rw [if_neg hzero, hnat, bytesAt_append hfront rfl]
    obtain ⟨copied, hcopy, hcopied⟩ := fresh.write_of_le 0 text (by omega)
    obtain ⟨buf, hwrite, hbytes⟩ := copied.write_of_le text.length [0] hlen
    have hstart : copied.bytes.take text.length = text := by
      rw [hcopied, List.take_zero, List.nil_append, List.take_left]
    refine ⟨buf, ?_, text_of_bytes htext (by rw [hbytes, hstart, List.append_assoc]; rfl)⟩
    simp only [bind, Except.bind, hcopy]
    exact hwrite

end Strings

section Objects

/-- What an object stands for. -/
inductive Value where
  | foo (fooId : BitVec 32) (text : List UInt8)
  | bar (text : List UInt8) (barId : BitVec 32)
  | tr (sec usec : BitVec 64)
  deriving DecidableEq, Repr

/-- The value of an object: its type, its integers, and the string in its array. -/
def Obj.value : Obj → Value
  | .foo f => .foo f.fooId f.buf.text
  | .bar b => .bar b.buf.text b.barId
  | .tr t => .tr t.sec t.usec

/-- The type of a value. -/
def Value.type : Value → BitVec 32
  | .foo _ _ => 0
  | .bar _ _ => 1
  | .tr _ _ => 2

theorem Obj.type_eq (obj : Obj) : obj.type = obj.value.type := by
  cases obj with
  | foo f => rfl
  | bar b => rfl
  | tr t => rfl

/-- The string of the object, if it has one, ends inside its array. -/
def Obj.Terminated : Obj → Prop
  | .foo f => f.buf.Terminated
  | .bar b => b.buf.Terminated
  | .tr _ => True

theorem fooEncode_eq (endian : Endian) (f : Foo) : fooEncode endian f =
    (headSize + 4 + f.buf.text.length, put32 endian f.fooId ++ f.buf.text) := by
  simp only [fooEncode, take_strnlen]
  rfl

theorem barEncode_eq (endian : Endian) (b : Bar) : barEncode endian b =
    (headSize + b.buf.text.length + 4, b.buf.text ++ put32 endian b.barId) := by
  simp only [barEncode, take_strnlen]
  rfl

/-- A small length keeps its value when it is converted from `int` to `size_t`. -/
theorem toNat_signExtend_ofNat {n : Nat} (h : n < 2 ^ 31) :
    ((BitVec.ofNat 32 n).signExtend 64).toNat = n := by
  have hnat : (BitVec.ofNat 32 n).toNat = n := by
    rw [BitVec.toNat_ofNat]
    omega
  have hmsb : (BitVec.ofNat 32 n).msb = false := by
    rw [BitVec.msb_eq_false_iff_two_mul_lt, hnat]
    omega
  rw [BitVec.signExtend_eq_setWidth_of_msb_false hmsb, BitVec.toNat_setWidth, hnat,
    Nat.mod_eq_of_lt (by omega)]

theorem atLeast_ofNat {n size : Nat} (h : n < 2 ^ 31) :
    atLeast (BitVec.ofNat 32 n) size ↔ size ≤ n := by
  unfold atLeast
  rw [toNat_signExtend_ofNat h]

theorem bufLen_eq (n : Nat) :
    BitVec.ofNat 32 (headSize + 4 + n) - BitVec.ofNat 32 headSize - 4 = BitVec.ofNat 32 n := by
  unfold headSize
  apply BitVec.eq_of_toNat_eq
  simp only [BitVec.toNat_sub, BitVec.toNat_ofNat, BitVec.ofNat_eq_ofNat]
  omega

variable (endian : Endian) (fresh : CharBuf) {head : List UInt8}

theorem fooDecode_fooEncode (hhead : head.length = headSize) {f : Foo}
    (hterminated : f.buf.Terminated) :
    ∃ f', fooDecode endian (head ++ (fooEncode endian f).2) fresh
        (BitVec.ofNat 32 (fooEncode endian f).1) = .ok (some f') ∧
      (Obj.foo f').value = (Obj.foo f).value := by
  have hshort : f.buf.text.length < 32 := hterminated
  have hoffset : (head ++ put32 endian f.fooId).length = headSize + 4 := by
    rw [List.length_append, hhead, length_put32]
  obtain ⟨buf, hdecode, htext⟩ := decodeText_of_text fresh (head ++ put32 endian f.fooId)
    f.buf.text [] hoffset (fun c hc => ne_zero_of_mem_text hc) hshort
  have hlimit : ¬ atLeast (BitVec.ofNat 32 f.buf.text.length) 32 := by
    rw [atLeast_ofNat (by omega)]
    omega
  have hid := get32_put32 endian f.buf.text hhead f.fooId
  rw [List.append_nil, List.append_assoc] at hdecode
  refine ⟨⟨f.fooId, buf⟩, ?_, by simp only [Obj.value, htext]⟩
  simp only [fooDecode, fooEncode_eq, bufLen_eq, hid, hlimit, hdecode, if_false, bind, Except.bind,
    pure, Except.pure]

theorem barDecode_barEncode (hhead : head.length = headSize) {b : Bar}
    (hterminated : b.buf.Terminated) :
    ∃ b', barDecode endian (head ++ (barEncode endian b).2) fresh
        (BitVec.ofNat 32 (barEncode endian b).1) = .ok (some b') ∧
      (Obj.bar b').value = (Obj.bar b).value := by
  have hshort : b.buf.text.length < 32 := hterminated
  obtain ⟨buf, hdecode, htext⟩ := decodeText_of_text fresh head b.buf.text
    (put32 endian b.barId) hhead (fun c hc => ne_zero_of_mem_text hc) hshort
  have hlimit : ¬ atLeast (BitVec.ofNat 32 b.buf.text.length) 32 := by
    rw [atLeast_ofNat (by omega)]
    omega
  have hlen : BitVec.ofNat 32 (headSize + b.buf.text.length + 4) - BitVec.ofNat 32 headSize - 4 =
      BitVec.ofNat 32 b.buf.text.length := by
    rw [Nat.add_right_comm, bufLen_eq]
  have hoffset : (head ++ b.buf.text).length =
      headSize + (BitVec.ofNat 32 b.buf.text.length).toNat := by
    rw [List.length_append, hhead, BitVec.toNat_ofNat, Nat.mod_eq_of_lt (by omega)]
  have hid := get32_put32 endian [] hoffset b.barId
  rw [List.append_nil, List.append_assoc] at hid
  refine ⟨⟨buf, b.barId⟩, ?_, by simp only [Obj.value, htext]⟩
  simp only [barDecode, barEncode_eq, hlen, hid, hlimit, hdecode, if_false, bind, Except.bind, pure,
    Except.pure]

theorem trDecode_trEncode (hhead : head.length = headSize) (t : TimeRecord) :
    trDecode endian (head ++ (trEncode endian t).2) = .ok (some t) := by
  have hoffset : (head ++ put64 endian t.sec).length = headSize + 8 := by
    rw [List.length_append, hhead, length_put64]
  have hsec := get64_put64 endian (put64 endian t.usec) hhead t.sec
  have husec := get64_put64 endian [] hoffset t.usec
  rw [List.append_nil, List.append_assoc] at husec
  simp only [trDecode, trEncode, hsec, husec, bind, Except.bind, pure, Except.pure]

theorem decodeBody_encodeBody (hhead : head.length = headSize) {obj : Obj}
    (hterminated : obj.Terminated) :
    ∃ obj', decodeBody endian (head ++ (encodeBody endian obj).2) fresh obj.type
        (BitVec.ofNat 32 (encodeBody endian obj).1) = .ok (some obj') ∧
      obj'.value = obj.value := by
  cases obj with
  | foo f =>
    obtain ⟨f', hdecode, hvalue⟩ := fooDecode_fooEncode endian fresh hhead hterminated
    refine ⟨.foo f', ?_, hvalue⟩
    show (do pure ((← fooDecode endian _ fresh _).map Obj.foo)) = _
    simp only [encodeBody, hdecode]
    rfl
  | bar b =>
    obtain ⟨b', hdecode, hvalue⟩ := barDecode_barEncode endian fresh hhead hterminated
    refine ⟨.bar b', ?_, hvalue⟩
    show (do pure ((← barDecode endian _ fresh _).map Obj.bar)) = _
    simp only [encodeBody, hdecode]
    rfl
  | tr t =>
    refine ⟨.tr t, ?_, rfl⟩
    show (do pure ((← trDecode endian _).map Obj.tr)) = _
    simp only [encodeBody, trDecode_trEncode endian hhead t]
    rfl

theorem encodeBody_length {obj : Obj} (hterminated : obj.Terminated) :
    headSize + (encodeBody endian obj).2.length = (encodeBody endian obj).1 ∧
      (encodeBody endian obj).1 ≤ 59 := by
  cases obj with
  | foo f =>
    have hshort : f.buf.text.length < 32 := hterminated
    simp only [encodeBody, fooEncode_eq, headSize, List.length_append, length_put32]
    omega
  | bar b =>
    have hshort : b.buf.text.length < 32 := hterminated
    simp only [encodeBody, barEncode_eq, headSize, List.length_append, length_put32]
    omega
  | tr t =>
    simp [encodeBody, trEncode, headSize]

theorem type_in_range (obj : Obj) : ¬ (obj.type.toInt < 0 ∨ 3 < obj.type.toInt) := by
  cases obj with
  | foo f => simp [Obj.type]
  | bar b => simp [Obj.type]
  | tr t => simp [Obj.type]

/-- The decoder returns what the body decodes to, if the head can be read and has a type. -/
theorem decodeMsg_of_fields {bytes : List UInt8} {len size : BitVec 32} {obj obj' : Obj}
    {sec usec : BitVec 64} (hlen : atLeast len headSize) (hsize : get32 endian bytes 0 = .ok size)
    (htype : get32 endian bytes 4 = .ok obj.type)
    (hbody : decodeBody endian bytes fresh obj.type size = .ok (some obj'))
    (hsec : get64 endian bytes 8 = .ok sec) (husec : get64 endian bytes 16 = .ok usec) :
    decodeMsg endian bytes fresh len = .ok (some obj') := by
  unfold decodeMsg
  rw [if_pos hlen]
  simp only [hsize, htype, type_in_range obj, hbody, hsec, husec, if_false, bind, Except.bind, pure,
    Except.pure]

/-- The fields of a head are read back, and the body is decoded behind it. -/
theorem decodeMsg_head (obj : Obj) (hterminated : obj.Terminated) (tvSec tvUsec : BitVec 64)
    {len : BitVec 32} (hlen : atLeast len headSize) {bytes : List UInt8}
    (hbytes : bytes = put32 endian (BitVec.ofNat 32 (encodeBody endian obj).1) ++
      (put32 endian obj.type ++ (put64 endian tvSec ++ (put64 endian tvUsec ++
        (encodeBody endian obj).2)))) :
    (∃ obj', decodeMsg endian bytes fresh len = .ok (some obj') ∧ obj'.value = obj.value) ∧
      get32 endian bytes 0 = .ok (BitVec.ofNat 32 (encodeBody endian obj).1) := by
  generalize hsize : put32 endian (BitVec.ofNat 32 (encodeBody endian obj).1) = size at hbytes
  have hsizeLen : size.length = 4 := by rw [← hsize, length_put32]
  have hsizeField : get32 endian bytes 0 = .ok (BitVec.ofNat 32 (encodeBody endian obj).1) := by
    rw [hbytes, ← hsize, ← List.nil_append (put32 endian _ ++ _)]
    exact get32_put32 endian _ List.length_nil _
  have htypeField : get32 endian bytes 4 = .ok obj.type := by
    rw [hbytes]
    exact get32_put32 endian _ hsizeLen obj.type
  have hsec : get64 endian bytes 8 = .ok tvSec := by
    rw [hbytes, ← List.append_assoc]
    exact get64_put64 endian _ (by simp [hsizeLen]) tvSec
  have husec : get64 endian bytes 16 = .ok tvUsec := by
    rw [hbytes, ← List.append_assoc, ← List.append_assoc]
    exact get64_put64 endian _ (by simp [hsizeLen]) tvUsec
  have hhead : (size ++ put32 endian obj.type ++ put64 endian tvSec ++
      put64 endian tvUsec).length = headSize := by
    simp [hsizeLen, headSize]
  obtain ⟨obj', hbody, hvalue⟩ := decodeBody_encodeBody endian fresh hhead hterminated
  simp only [List.append_assoc, ← hbytes] at hbody
  have hdecode := decodeMsg_of_fields endian fresh hlen hsizeField htypeField hbody hsec husec
  exact ⟨⟨obj', hdecode, hvalue⟩, hsizeField⟩

theorem length_encodeMsg (tvSec tvUsec : BitVec 64) {obj : Obj} (hterminated : obj.Terminated) :
    (encodeMsg endian tvSec tvUsec obj).1.length = (encodeBody endian obj).1 := by
  have hlen := (encodeBody_length endian hterminated).1
  simp only [encodeMsg, List.length_append, length_put32, length_put64]
  unfold headSize at hlen
  omega

theorem atLeast_encodeBody {obj : Obj} (hterminated : obj.Terminated) :
    atLeast (BitVec.ofNat 32 (encodeBody endian obj).1) headSize := by
  have hlen := encodeBody_length endian hterminated
  rw [atLeast_ofNat (by omega)]
  omega

/-- Decoding the bytes of an object, with the length that was reported for them, gives an object of
the same type with the same integers and the same string, on both kinds of host. The reported
length is the length of the bytes and the value of the size field, between 24 and 59. -/
theorem codec_round_trip (tvSec tvUsec : BitVec 64) (obj : Obj) (hterminated : obj.Terminated) :
    (∃ obj', decodeMsg endian (encodeMsg endian tvSec tvUsec obj).1 fresh
        (BitVec.ofNat 32 (encodeMsg endian tvSec tvUsec obj).2) = .ok (some obj') ∧
      obj'.type = obj.type ∧ obj'.value = obj.value) ∧
    (encodeMsg endian tvSec tvUsec obj).1.length = (encodeMsg endian tvSec tvUsec obj).2 ∧
    get32 endian (encodeMsg endian tvSec tvUsec obj).1 0 =
      .ok (BitVec.ofNat 32 (encodeMsg endian tvSec tvUsec obj).2) ∧
    24 ≤ (encodeMsg endian tvSec tvUsec obj).2 ∧ (encodeMsg endian tvSec tvUsec obj).2 ≤ 59 := by
  obtain ⟨hlen, hle⟩ := encodeBody_length endian hterminated
  have hge : headSize ≤ (encodeBody endian obj).1 := by omega
  obtain ⟨⟨obj', hdecode, hvalue⟩, hsizeField⟩ := decodeMsg_head endian fresh obj hterminated
    tvSec tvUsec (atLeast_encodeBody endian hterminated) rfl
  refine ⟨⟨obj', hdecode, ?_, hvalue⟩, length_encodeMsg endian tvSec tvUsec hterminated,
    hsizeField, hge, hle⟩
  rw [obj'.type_eq, hvalue, ← obj.type_eq]

/-- An array of zeros, which holds the empty string. -/
def emptyBuf : CharBuf :=
  ⟨List.replicate 32 0, rfl⟩

/-- The twelve letters `a` to `l`, terminated. -/
def twelveBuf : CharBuf :=
  ⟨(List.range 12).map (fun i => UInt8.ofNat (97 + i)) ++ List.replicate 20 0, rfl⟩

/-- A `Bar` with a string of twelve characters and the largest id, on a little-endian host. -/
theorem codec_round_trip_bar :
    ∃ obj', decodeMsg .little (encodeMsg .little 1 2 (.bar ⟨twelveBuf, 0xffffffff⟩)).1 emptyBuf
        (BitVec.ofNat 32 (encodeMsg .little 1 2 (.bar ⟨twelveBuf, 0xffffffff⟩)).2) =
          .ok (some obj') ∧
      obj'.type = 1 ∧
      obj'.value = .bar [97, 98, 99, 100, 101, 102, 103, 104, 105, 106, 107, 108] 0xffffffff :=
  (codec_round_trip .little emptyBuf 1 2 (.bar ⟨twelveBuf, 0xffffffff⟩)
    (show strnlen twelveBuf < 32 by decide)).1

end Objects

end HakunaMatata.Libevent
