import HakunaMatata.Protobuf.Decoder

/-!
# The Java codec for files, `codec.local`

A frame is its total length, a version of sixteen bytes, the length of the name, the full name of
the message type and the data. `encode` writes a frame, and `decode` reads frames off an array
until an incomplete one or the end is reached. Lengths are `int`.
-/

namespace HakunaMatata.Protobuf.Local

open Base Base.Java

/-- `ProtobufEncoder.version`. -/
def version : String := "0.0.1"

/-- The version as it is written: cut to 15 bytes and filled with 0 to 16. -/
def versionBytesPrepared (versionBytes : List UInt8) : List UInt8 :=
  let length := if 16 ≤ versionBytes.length then 15 else versionBytes.length
  versionBytes.take length ++ List.replicate (16 - length) 0

/-- `IsSupportedVersion`. -/
def isSupportedVersion (_version : List UInt8) : Bool := true

variable {M D : Type} (runtime : Runtime M D) (decoder : Decoder M D)

/-- `ProtobufEncoder.encode`. -/
def encode (message : M) : Except Thrown (List UInt8) := do
  let bytes := runtime.toByteArray message
  let msgFullName := runtime.fullName message
  let nameLen := length16 msgFullName
  let totalLen := i32 (4 + 16 + 4 + nameLen + bytes.length)
  let buffer ← ByteBuffer.allocate totalLen
  let buffer ← buffer.put (intBytes totalLen)
  let buffer ← buffer.put (versionBytesPrepared (utf8 version))
  let buffer ← buffer.put (intBytes nameLen)
  let buffer ← buffer.put (utf8 msgFullName)
  let buffer ← buffer.put bytes
  pure buffer.array

/-- `DecodeSingle`: a message and the bytes that remain, or `none` for a frame that is not
complete. -/
def decodeSingle (remaining : List UInt8) : Except Thrown (Option (M × List UInt8)) :=
  let readableBytes := remaining.length
  if readableBytes < 4 then .ok none
  else do
    let totalLen ← getInt remaining
    if totalLen.1 > readableBytes then pure none
    else if totalLen.1 > decoder.totalLenLimit then DecodeError.lenBeyondLimit.throw
    else if totalLen.1 < 4 + 16 + 4 then DecodeError.lenTooSmall.throw
    else do
      let version ← get 16 totalLen.2
      if isSupportedVersion version.1 = false then DecodeError.unsupportedVersion.throw
      else do
        let nameLen ← getInt version.2
        if nameLen.1 > decoder.nameLenLimit then DecodeError.nameLenBeyondLimit.throw
        else if nameLen.1 ≤ 0 then DecodeError.nameLenTooSmall.throw
        else if totalLen.1 < i32 (4 + 16 + 4 + nameLen.1) then DecodeError.lenTooSmall.throw
        else do
          let nameBytes ← get nameLen.1 nameLen.2
          let name := runtime.newString nameBytes.1
          let dataLen := i32 (totalLen.1 - i32 (4 + 16 + 4 + nameLen.1))
          if dataLen > 0 then do
            let data ← get dataLen nameBytes.2
            let message ← parse runtime decoder name (some data.1)
            pure (some (message, data.2))
          else if dataLen = 0 then do
            let message ← parse runtime decoder name none
            pure (some (message, nameBytes.2))
          else DecodeError.failedParseData.throw

/-- `ProtobufDecoder.decode`, from the bytes that remain on. The fuel bounds the messages; the
source has no bound. -/
def decode : Nat → List UInt8 → Except Thrown (List M)
  | 0, _ => .error .diverged
  | fuel + 1, remaining =>
    if remaining.length < 4 then .ok []
    else do
      let single ← decodeSingle runtime decoder remaining
      single.elim (pure []) fun next => do
        let messageList ← decode fuel next.2
        pure (next.1 :: messageList)

end HakunaMatata.Protobuf.Local
