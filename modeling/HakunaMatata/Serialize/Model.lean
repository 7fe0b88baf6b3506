import HakunaMatata.Base.CStrings
import HakunaMatata.Base.Words

/-!
# Serializing variables into a fixed buffer, `serialize.cpp`

The four overloads of `Serialize` write a tag and a value, or a tag, a length and characters, behind
what is in the buffer. Each one first compares the space it needs, by a formula of its own, with the
space that remains. A write outside the array is a `Fault`. Sizes and positions are 32-bit values,
`sizeof` of a pointer is 8.
-/

namespace HakunaMatata.Serialize

open Base

/-- `sizeof(buf.bytes)`. -/
def capacity : Nat := 1024

def varTypeConst : Nat := 0

def varTypeStr : Nat := 1

/-- `bytes_buf_t`. -/
structure BytesBuf where
  bytes : List UInt8
  pos : Nat
  deriving DecidableEq, Repr

/-- `bytes_buf_t buf = {}`. -/
def BytesBuf.empty : BytesBuf :=
  ⟨List.replicate capacity 0, 0⟩

/-- An argument of `SerializeVars`, by the overload that it selects. -/
inductive Var where
  | value (v : List UInt8)
  | charArray (v : List UInt8)
  | constCharPtr (v : CString)
  | charPtr (v : CString)
  deriving DecidableEq

/-- `memcpy(buf.bytes + buf.pos, source, count); buf.pos += count;` -/
def copyIn (buf : BytesBuf) (source : List UInt8) (count : Nat) : Except Fault BytesBuf := do
  let bytes ← memcpy buf.bytes buf.pos source 0 count
  pure ⟨bytes, u32 (buf.pos + count)⟩

/-- The common part of the overloads: nothing is written if less remains than is needed, and
otherwise the parts one after the other. -/
def writeParts (buf : BytesBuf) (need : Nat) (parts : List (List UInt8 × Nat)) :
    Except Fault (Bool × BytesBuf) :=
  let remain := u32 (capacity + (2 ^ 32 - buf.pos))
  if remain < need then pure (false, buf)
  else do
    let buf' ← parts.foldlM (fun buf part => copyIn buf part.1 part.2) buf
    pure (true, buf')

section Overloads

variable (endian : Endian) (buf : BytesBuf)

/-- `Serialize(bytes_buf_t &, const T &)`. -/
def serializeValue (v : List UInt8) : Except Fault (Bool × BytesBuf) :=
  let need := u32 (v.length + 4)
  writeParts buf need [(storeWord endian 4 varTypeConst, 4), (v, v.length)]

/-- `Serialize(bytes_buf_t &, const char (&)[N])`: `sizeof(v)` is `N`. -/
def serializeCharArray (v : List UInt8) : Except Fault (Bool × BytesBuf) :=
  let vSize := u32 v.length
  let need := u32 (v.length + 4 + vSize)
  writeParts buf need
    [(storeWord endian 4 varTypeStr, 4), (storeWord endian 4 vSize, 4), (v, vSize)]

/-- `Serialize(bytes_buf_t &, const char *const &)`: `sizeof(v)` is the size of the pointer. -/
def serializeConstCharPtr (v : CString) : Except Fault (Bool × BytesBuf) :=
  let vSize := u32 (v.chars.length + 1)
  let need := u32 (8 + 4 + vSize)
  writeParts buf need
    [(storeWord endian 4 varTypeStr, 4), (storeWord endian 4 vSize, 4), (v.bytes, vSize)]

/-- `Serialize(bytes_buf_t &, char *const &)`, with the same body. -/
def serializeCharPtr (v : CString) : Except Fault (Bool × BytesBuf) :=
  serializeConstCharPtr endian buf v

/-- The overload that an argument selects. -/
def serialize : Var → Except Fault (Bool × BytesBuf)
  | .value v => serializeValue endian buf v
  | .charArray v => serializeCharArray endian buf v
  | .constCharPtr v => serializeConstCharPtr endian buf v
  | .charPtr v => serializeCharPtr endian buf v

end Overloads

/-- `SerializeVars`: the first failure ends the call. -/
def serializeVars (endian : Endian) : BytesBuf → List Var → Except Fault (Bool × BytesBuf)
  | buf, [] => pure (true, buf)
  | buf, v :: rest => do
    let (done, buf') ← serialize endian buf v
    if done then serializeVars endian buf' rest else pure (false, buf')

end HakunaMatata.Serialize
