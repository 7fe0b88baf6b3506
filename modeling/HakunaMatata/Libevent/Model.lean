import HakunaMatata.Base.Words

/-!
# The objects of the libevent demo and their codec, `object.c`

An object is one of three records. On the wire it is a head of 24 bytes and a body whose layout
depends on the type; integers are in network byte order. `encodeMsg` produces these bytes and
`decodeMsg` reads them back, with a check at every access to the bytes and to the table of
types. The decoder trusts the size field of the head and ignores the length that it is given once
the head is there, as in the source.
-/

namespace HakunaMatata.Libevent

open Base

/-- `util_ex_32`. -/
def utilEx32 (v : BitVec 32) : BitVec 32 :=
  (v &&& 0xff) <<< 24 ||| (v &&& 0xff00) <<< 8 ||| (v &&& 0xff0000) >>> 8 |||
    (v &&& 0xff000000) >>> 24

/-- `util_ex_64`. -/
def utilEx64 (v : BitVec 64) : BitVec 64 :=
  (v &&& 0xff) <<< 56 ||| (v &&& 0xff00) <<< 40 ||| (v &&& 0xff0000) <<< 24 |||
    (v &&& 0xff000000) <<< 8 ||| (v &&& 0xff00000000) >>> 8 ||| (v &&& 0xff0000000000) >>> 24 |||
    (v &&& 0xff000000000000) >>> 40 ||| (v &&& 0xff00000000000000) >>> 56

/-- `util_hton_32` and `util_ntoh_32`. -/
def utilHton32 (endian : Endian) (v : BitVec 32) : BitVec 32 :=
  match endian with
  | .little => utilEx32 v
  | .big => v

/-- `util_hton_64` and `util_ntoh_64`. -/
def utilHton64 (endian : Endian) (v : BitVec 64) : BitVec 64 :=
  match endian with
  | .little => utilEx64 v
  | .big => v

/-- The bytes of a 32-bit integer that is stored in network byte order. -/
def put32 (endian : Endian) (v : BitVec 32) : List UInt8 :=
  storeWord endian 4 (utilHton32 endian v).toNat

/-- The bytes of a 64-bit integer that is stored in network byte order. -/
def put64 (endian : Endian) (v : BitVec 64) : List UInt8 :=
  storeWord endian 8 (utilHton64 endian v).toNat

/-- Read a 32-bit integer in network byte order. -/
def get32 (endian : Endian) (bytes : List UInt8) (offset : Nat) : Except Fault (BitVec 32) := do
  let word ← bytesAt bytes offset 4
  pure (utilHton32 endian (BitVec.ofNat 32 (loadWord endian word)))

/-- Read a 64-bit integer in network byte order. -/
def get64 (endian : Endian) (bytes : List UInt8) (offset : Nat) : Except Fault (BitVec 64) := do
  let word ← bytesAt bytes offset 8
  pure (utilHton64 endian (BitVec.ofNat 64 (loadWord endian word)))

/-- `char buf[32]`. -/
structure CharBuf where
  bytes : List UInt8
  length_eq : bytes.length = 32

/-- Write bytes to the array, from the offset on. -/
def CharBuf.write (buf : CharBuf) (offset : Nat) (bytes : List UInt8) : Except Fault CharBuf :=
  if h : offset + bytes.length ≤ 32 then
    .ok ⟨buf.bytes.take offset ++ bytes ++ buf.bytes.drop (offset + bytes.length), by
      have hlen := buf.length_eq
      simp only [List.length_append, List.length_take, List.length_drop]
      omega⟩
  else .error .outOfBounds

/-- The string in the array: what stands before the first NUL. -/
def CharBuf.text (buf : CharBuf) : List UInt8 :=
  buf.bytes.takeWhile (· ≠ 0)

/-- `strnlen(buf, sizeof(buf))`. -/
def strnlen (buf : CharBuf) : Nat :=
  buf.text.length

/-- `struct Foo`. -/
structure Foo where
  fooId : BitVec 32
  buf : CharBuf

/-- `struct Bar`. -/
structure Bar where
  buf : CharBuf
  barId : BitVec 32

/-- `struct TimeRecord`. -/
structure TimeRecord where
  sec : BitVec 64
  usec : BitVec 64

/-- An object, by the type in its `baseObj`. -/
inductive Obj where
  | foo (foo : Foo)
  | bar (bar : Bar)
  | tr (tr : TimeRecord)

/-- `obj->type`. -/
def Obj.type : Obj → BitVec 32
  | .foo _ => 0
  | .bar _ => 1
  | .tr _ => 2

/-- `sizeof(struct streamHead)`. -/
def headSize : Nat := 24

section Encode

variable (endian : Endian)

/-- `fooEncode`: the length, and what is written behind the head. -/
def fooEncode (foo : Foo) : Nat × List UInt8 :=
  let fooBufLen := strnlen foo.buf
  (headSize + 4 + fooBufLen, put32 endian foo.fooId ++ foo.buf.bytes.take fooBufLen)

/-- `barEncode`. -/
def barEncode (bar : Bar) : Nat × List UInt8 :=
  let barBufLen := strnlen bar.buf
  (headSize + barBufLen + 4, bar.buf.bytes.take barBufLen ++ put32 endian bar.barId)

/-- `trEncode`. -/
def trEncode (tr : TimeRecord) : Nat × List UInt8 :=
  (headSize + 2 * 8, put64 endian tr.sec ++ put64 endian tr.usec)

/-- `obj_fn[obj->type].fn_encode`. -/
def encodeBody : Obj → Nat × List UInt8
  | .foo foo => fooEncode endian foo
  | .bar bar => barEncode endian bar
  | .tr tr => trEncode endian tr

/-- `encodeMsg`: the bytes and `*len`. The time of day is given. -/
def encodeMsg (tvSec tvUsec : BitVec 64) (obj : Obj) : List UInt8 × Nat :=
  let (len, body) := encodeBody endian obj
  (put32 endian (BitVec.ofNat 32 len) ++ (put32 endian obj.type ++
    (put64 endian tvSec ++ (put64 endian tvUsec ++ body))), len)

end Encode

section Decode

variable (endian : Endian) (bytes : List UInt8) (fresh : CharBuf)

/-- The test `n >= size` of an `int` against a `size_t`: a negative number is converted to a huge
one. -/
def atLeast (n : BitVec 32) (size : Nat) : Prop :=
  size ≤ (n.signExtend 64).toNat

instance (n : BitVec 32) (size : Nat) : Decidable (atLeast n size) :=
  inferInstanceAs (Decidable (_ ≤ _))

/-- Copy a string of the message into the array of a fresh object, and terminate it. -/
def decodeText (offset : Nat) (bufLen : BitVec 32) : Except Fault CharBuf :=
  if bufLen = 0 then fresh.write 0 [0]
  else do
    let text ← bytesAt bytes offset bufLen.toNat
    let buf ← fresh.write 0 text
    buf.write bufLen.toNat [0]

/-- `fooDecode`; `none` is its result `-1`. -/
def fooDecode (len : BitVec 32) : Except Fault (Option Foo) := do
  let fooId ← get32 endian bytes headSize
  let bufLen := len - BitVec.ofNat 32 headSize - 4
  if atLeast bufLen 32 then pure none
  else do
    let buf ← decodeText bytes fresh (headSize + 4) bufLen
    pure (some ⟨fooId, buf⟩)

/-- `barDecode`. -/
def barDecode (len : BitVec 32) : Except Fault (Option Bar) := do
  let bufLen := len - BitVec.ofNat 32 headSize - 4
  if atLeast bufLen 32 then pure none
  else do
    let buf ← decodeText bytes fresh headSize bufLen
    let barId ← get32 endian bytes (headSize + bufLen.toNat)
    pure (some ⟨buf, barId⟩)

/-- `trDecode`. -/
def trDecode : Except Fault (Option TimeRecord) := do
  let sec ← get64 endian bytes headSize
  let usec ← get64 endian bytes (headSize + 8)
  pure (some ⟨sec, usec⟩)

/-- `obj_fn[type].fn_decode`: the table has three entries. -/
def decodeBody (type size : BitVec 32) : Except Fault (Option Obj) :=
  match type.toNat with
  | 0 => do pure ((← fooDecode endian bytes fresh size).map .foo)
  | 1 => do pure ((← barDecode endian bytes fresh size).map .bar)
  | 2 => do pure ((← trDecode endian bytes).map .tr)
  | _ => .error .outOfBounds

/-- `decodeMsg`; `none` is a null pointer. The array of the new object holds `fresh` before it is
written. The type `OBJ_TYPE_MAX` itself passes the check. -/
def decodeMsg (len : BitVec 32) : Except Fault (Option Obj) :=
  if atLeast len headSize then do
    let size ← get32 endian bytes 0
    let type ← get32 endian bytes 4
    if type.toInt < 0 ∨ 3 < type.toInt then pure none
    else do
      match ← decodeBody endian bytes fresh type size with
      | none => pure none
      | some obj => do
        let _sec ← get64 endian bytes 8
        let _usec ← get64 endian bytes 16
        pure (some obj)
  else .ok none

end Decode

end HakunaMatata.Libevent
