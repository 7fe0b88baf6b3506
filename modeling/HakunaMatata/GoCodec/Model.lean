import HakunaMatata.Base.Bufio
import HakunaMatata.Base.Words

/-!
# The byte codec of the Go demo, `bytes_codec.go`

A message is a header of sixteen bytes and a payload; the numbers of the header are written in
little-endian order on every machine. `encode` writes a message. `decode` reads one from a
buffered reader: it peeks at the header, checks it, skips it and then reads the payload in a
loop, which stops at `io.EOF` and goes on after every other error, as in the source. `receive`
is a caller that decodes until it gets an error.
-/

namespace HakunaMatata.GoCodec

open Base Bufio

/-- `sMagicByte0` to `sMagicByte3`, the bytes of `"DEMO"`. -/
def magicBytes : List UInt8 := [0x44, 0x45, 0x4D, 0x4F]

/-- `sFlagsEndian`, `sFlagsVer`, `sFlagsCompressed` and `sFlagsReversed`. -/
def flagBytes : List UInt8 := [0, 1, 0, 0]

/-- `sHdrSize`. -/
def hdrSize : Nat := 16

/-- `MsgHdr`. -/
structure MsgHdr where
  magic : List UInt8
  flags : List UInt8
  msgId : UInt32
  payloadLen : UInt32
  deriving DecidableEq, Repr

/-- `BytesCodec`. -/
structure BytesCodec where
  maxPayloadLimit : UInt32
  deriving DecidableEq, Repr

/-- The header as `binary.Write` puts it in a packet. -/
def MsgHdr.write (hdr : MsgHdr) : List UInt8 :=
  hdr.magic ++ hdr.flags ++ storeWord .little 4 hdr.msgId.toNat ++
    storeWord .little 4 hdr.payloadLen.toNat

/-- The header that `binary.Read` gets from these bytes. -/
def MsgHdr.read (bytes : List UInt8) : MsgHdr where
  magic := bytes.take 4
  flags := (bytes.drop 4).take 4
  msgId := UInt32.ofNat (loadWord .little ((bytes.drop 8).take 4))
  payloadLen := UInt32.ofNat (loadWord .little ((bytes.drop 12).take 4))

/-- `Encode`. Neither of its writes to a buffer in memory can fail. -/
def encode (msgId : UInt32) (payload : List UInt8) : List UInt8 :=
  let hdr : MsgHdr := ⟨magicBytes, flagBytes, msgId, UInt32.ofNat payload.length⟩
  hdr.write ++ payload

/-- What `Decode` returns, and the reader after it. -/
inductive Decoded (σ : Type*) where
  | message (hdr : MsgHdr) (payload : List UInt8) (next : Reader σ)
  | failed (err : GoError) (next : Reader σ)

/-- The messages that a caller received, the error that made it stop, and the reader after it. -/
structure Received (σ : Type*) where
  messages : List (UInt32 × List UInt8)
  err : Option GoError
  next : Reader σ

section Decode

variable {σ : Type*} (r : IoReader σ) (size : Nat)

/-- The loop of `Decode` that reads the payload; `payload` is what was read so far. The fuel
bounds its iterations; the source has no bound. -/
def readPayload (hdr : MsgHdr) : Nat → List UInt8 → Reader σ → Except Fault (Decoded σ)
  | 0, _, _ => .error .diverged
  | fuel + 1, payload, b =>
    let result := read r size (hdr.payloadLen.toNat - payload.length) b
    if result.err = some .eof then .ok (.failed .eof result.next)
    else
      let payload := payload ++ result.bytes
      if payload.length = hdr.payloadLen.toNat then .ok (.message hdr payload result.next)
      else if hdr.payloadLen.toNat < payload.length then
        .ok (.failed (.text "exception! read beyond expect") result.next)
      else readPayload hdr fuel payload result.next

/-- `Decode`. -/
def decode (codec : BytesCodec) (fuel : Nat) (b : Reader σ) : Except Fault (Decoded σ) :=
  let peeked := peek r size hdrSize b
  match peeked.err with
  | some err => .ok (.failed err peeked.next)
  | none =>
    let hdr := MsgHdr.read peeked.bytes
    if hdr.magic ≠ magicBytes then .ok (.failed (.text "invalid magic word") peeked.next)
    else if hdr.flags ≠ flagBytes then .ok (.failed (.text "invalid flags") peeked.next)
    else if 0 < codec.maxPayloadLimit ∧ codec.maxPayloadLimit < hdr.payloadLen then
      .ok (.failed (.text "payload length beyond the limit") peeked.next)
    else readPayload r size hdr fuel [] (discard hdrSize peeked.next)

/-- Call `Decode` up to `count` times, until it returns an error. -/
def receive (codec : BytesCodec) (fuel : Nat) : Nat → Reader σ → Except Fault (Received σ)
  | 0, b => .ok ⟨[], none, b⟩
  | count + 1, b => do
    match ← decode r size codec fuel b with
    | .failed err b => pure ⟨[], some err, b⟩
    | .message hdr payload b => do
      let rest ← receive codec fuel count b
      pure { rest with messages := (hdr.msgId, payload) :: rest.messages }

end Decode

end HakunaMatata.GoCodec
