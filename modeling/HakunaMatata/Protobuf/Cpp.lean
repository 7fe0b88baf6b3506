import HakunaMatata.Base.JavaBytes

/-!
# The C++ codec for files, `codec.cpp`, and the reader, `local.cpp`

`serialize` fills allocated memory with a frame, one store after the other. `deserialize` reads a
frame at a pointer into the bytes of the file, and `readSample` walks over the file by the
lengths that it finds. Every access is checked against the memory it goes to, the lengths are
`int32_t`, and a name is a C string. The protobuf runtime is a parameter `Runtime`.
-/

namespace HakunaMatata.Protobuf.Cpp

open Base Base.Java

/-- The protobuf runtime, for messages `M` and descriptors `T`. A full name is a `std::string`.
`serializeToArray` gives the bytes that are written, and `parseFromArray` is `New` and the parser
of the type. -/
structure Runtime (M T : Type) where
  fullName : M → List UInt8
  byteSizeLong : M → Nat
  serializeToArray : M → Option (List UInt8)
  findMessageTypeByName : List UInt8 → Option T
  parseFromArray : T → List UInt8 → Option M

/-- The text `"0.0.1"` of `version`. -/
def version : List UInt8 := [0x30, 0x2E, 0x30, 0x2E, 0x31]

/-- What `strncpy` writes: the text, filled with 0 to the count. -/
def strncpy (text : List UInt8) (count : Nat) : List UInt8 :=
  text.take count ++ List.replicate (count - text.length) 0

/-- The C string at the front of an array. -/
def cString (array : List UInt8) : List UInt8 :=
  array.takeWhile (· ≠ 0)

variable {M T : Type} (runtime : Runtime M T)

/-- `Codec::Serialize`: the bytes, or `none` for a null pointer, and `total_len`. The allocated
memory has arbitrary contents. -/
def serialize (junk : Nat → UInt8) (msg : M) : Except Fault (Option (List UInt8) × Int) := do
  let size := runtime.byteSizeLong msg
  let typeName := runtime.fullName msg
  let totalLen := i32 (4 + 16 + 4 + typeName.length + size)
  let bytes := uninit junk totalLen.toNat
  let bytes ← storeAt bytes 0 (intBytes totalLen)
  let bytes ← storeAt bytes 4 (List.replicate 16 0)
  let bytes ← storeAt bytes 4 (strncpy version 15)
  let bytes ← storeAt bytes 20 (intBytes (i32 typeName.length))
  let bytes ← storeAt bytes 24 typeName
  (runtime.serializeToArray msg).elim (pure (none, totalLen)) fun data => do
    let bytes ← storeAt bytes (24 + typeName.length) data
    pure (some bytes, totalLen)

/-- A 32-bit integer in network order. -/
def ntohl (bytes : List UInt8) (offset : Nat) : Except Fault Int := do
  let word ← bytesAt bytes offset 4
  pure (intOf word)

/-- The bytes that are handed to the parser. -/
def dataAt (bytes : List UInt8) (offset : Nat) (size : Int) : Except Fault (List UInt8) :=
  if size < 0 then .error .outOfBounds else bytesAt bytes offset size.toNat

/-- `limit_name_len`. -/
def limitNameLen : Int := 129

/-- What `Deserialize` yields: the message, or `none` for a null pointer, and `total_len`. -/
structure Deserialized (M : Type) where
  msg : Option M
  totalLen : Int

/-- `Codec::Deserialize`. -/
def deserialize (bytes : List UInt8) : Except Fault (Deserialized M) := do
  let totalLen ← ntohl bytes 0
  let _version ← bytesAt bytes 4 15
  let nameLen ← ntohl bytes 20
  if nameLen ≤ 0 ∨ nameLen ≥ limitNameLen then pure ⟨none, totalLen⟩
  else do
    let name ← bytesAt bytes 24 nameLen.toNat
    (runtime.findMessageTypeByName (cString name)).elim (pure ⟨none, totalLen⟩) fun desc => do
      let size := i32 (totalLen - 4 - 16 - 4 - nameLen)
      let data ← dataAt bytes (24 + nameLen.toNat) size
      pure ⟨runtime.parseFromArray desc data, totalLen⟩

/-- `LocalReader::Parse`, at an offset into the bytes: the messages that the handler received, and
the length. -/
def parse (bytes : List UInt8) (offset : Int) : Except Fault (List M × Int) :=
  if offset < 0 then .error .outOfBounds
  else do
    let result ← deserialize runtime (bytes.drop offset.toNat)
    pure (result.msg.toList, result.totalLen)

/-- The loop of `readSample`: the messages that the handler received. The fuel bounds its
iterations; the source has no bound. -/
def readLoop (bytes : List UInt8) : Nat → Int → Except Fault (List M)
  | 0, _ => .error .diverged
  | fuel + 1, accumLen => do
    let parsed ← parse runtime bytes accumLen
    let accumLen := i32 (accumLen + parsed.2)
    if accumLen ≥ bytes.length then pure parsed.1
    else do
      let rest ← readLoop bytes fuel accumLen
      pure (parsed.1 ++ rest)

/-- `readSample` of a file with these bytes. -/
def readSample (fuel : Nat) (bytes : List UInt8) : Except Fault (List M) :=
  readLoop runtime bytes fuel 0

end HakunaMatata.Protobuf.Cpp
