import HakunaMatata.Base.Memory
import HakunaMatata.Base.Words

/-!
# The byte codec of the custom TCP protocol, `codec_bytes.cpp`

A message is a header of sixteen bytes and a payload. `encode` fills in the header of a message
before it is sent. `decode` moves what the socket received into the byte buffer of the session
and then parses messages off the buffer, one per iteration of `parseLoop`, and hands each one
to the dispatcher. The buffer class belongs to another library: it is a parameter
`BytesBuffer`, and `IdealFifo` states what it is documented to do. The total length of a
message is computed in 32-bit arithmetic, as in the source.
-/

namespace HakunaMatata.CodecBytes

open Base

/-- The machine that runs the codec: its byte order and the two values that name a byte order in a
header. -/
structure Host where
  endian : Endian
  littleEndian : UInt8
  bigEndian : UInt8
  deriving DecidableEq, Repr

/-- `s_endianess`. -/
def Host.endianess (host : Host) : UInt8 :=
  match host.endian with
  | .little => host.littleEndian
  | .big => host.bigEndian

/-- `s_magic`, the bytes of `"DEMO"`. -/
def magicWord : List UInt8 := [0x44, 0x45, 0x4D, 0x4F]

/-- `s_protocol_ver` and `s_ver`. -/
def protocolVer : UInt8 := 1

/-- `sizeof(msg_hdr_t)`. -/
def headerSize : Nat := 16

/-- `msg_hdr_t`. -/
structure MsgHdr where
  magic : List UInt8
  flags : List UInt8
  msgId : Nat
  payloadLen : Nat
  deriving DecidableEq, Repr

/-- The header that stands at the front of these bytes. -/
def MsgHdr.read (host : Host) (bytes : List UInt8) : MsgHdr where
  magic := bytes.take 4
  flags := (bytes.drop 4).take 4
  msgId := loadWord host.endian ((bytes.drop 8).take 4)
  payloadLen := loadWord host.endian ((bytes.drop 12).take 4)

/-- The bytes of a header. -/
def MsgHdr.write (host : Host) (hdr : MsgHdr) : List UInt8 :=
  hdr.magic ++ hdr.flags ++ storeWord host.endian 4 hdr.msgId ++
    storeWord host.endian 4 hdr.payloadLen

/-- A message of the application: its id and its payload. -/
structure Message where
  msgId : UInt32
  payload : List UInt8
  deriving DecidableEq, Repr

/-- The message that `NEW_STACK_DEMO_MSG` prepares: a header of zeros with the message id, and the
payload that the caller fills in. -/
def newStackMsg (host : Host) (message : Message) : List UInt8 :=
  MsgHdr.write host ⟨List.replicate 4 0, List.replicate 4 0, message.msgId.toNat, 0⟩ ++
    message.payload

/-- `CodecBytes::encode`: the bytes that are handed on to be sent. -/
def encode (host : Host) (data : List UInt8) : List UInt8 :=
  let hdr := MsgHdr.read host data
  let hdr := { hdr with
    magic := magicWord
    flags := ((hdr.flags.set 0 host.endianess).set 1 protocolVer).set 2 0
    payloadLen := u32 (data.length + (2 ^ 32 - headerSize)) }
  MsgHdr.write host hdr ++ data.drop headerSize

/-- The byte string that is sent for a message. -/
def Message.encoded (host : Host) (message : Message) : List UInt8 :=
  encode host (newStackMsg host message)

/-- The operations of `muggle::BytesBuffer` that the codec uses. `writerFc` tells whether a
contiguous place to write to was found, and `writerMove` publishes the bytes written there;
`readerFc` gives the bytes only if they are contiguous. The counts are `int` in the source. -/
structure BytesBuffer (β : Type*) where
  writerFc : Nat → β → Bool
  writerMove : List UInt8 → β → β
  readable : β → Nat
  fetch : Nat → β → Option (List UInt8)
  readerFc : Nat → β → Option (List UInt8)
  readerMove : Nat → β → β
  read : Nat → β → List UInt8 × β

/-- The buffer is a first-in first-out queue of bytes that always accepts more. Whether bytes at
its front are contiguous is up to the buffer. -/
structure IdealFifo {β : Type*} (buffer : BytesBuffer β) (content : β → List UInt8) : Prop where
  writerFc : ∀ count b, buffer.writerFc count b = true
  writerMove : ∀ bytes b, content (buffer.writerMove bytes b) = content b ++ bytes
  readable : ∀ b, buffer.readable b = (content b).length
  fetch : ∀ count b, buffer.fetch count b =
    if count ≤ (content b).length then some ((content b).take count) else none
  readerFc : ∀ count b msg, count ≤ (content b).length → buffer.readerFc count b = some msg →
    msg = (content b).take count
  readerMove : ∀ count b, count ≤ (content b).length →
    content (buffer.readerMove count b) = (content b).drop count
  read : ∀ count b, count ≤ (content b).length →
    (buffer.read count b).1 = (content b).take count ∧
      content (buffer.read count b).2 = (content b).drop count

/-- A buffer that is a list of bytes, of which the first `contiguous` lie next to each other. -/
def listBuffer (contiguous : Nat) : BytesBuffer (List UInt8) where
  writerFc _ _ := true
  writerMove bytes b := b ++ bytes
  readable b := b.length
  fetch count b := if count ≤ b.length then some (b.take count) else none
  readerFc count b := if count ≤ contiguous then some (b.take count) else none
  readerMove count b := b.drop count
  read count b := (b.take count, b.drop count)

/-- A list of bytes is an ideal buffer, wherever it is broken. -/
theorem listBuffer_ideal (contiguous : Nat) : IdealFifo (listBuffer contiguous) id where
  writerFc _ _ := rfl
  writerMove _ _ := rfl
  readable _ := rfl
  fetch _ _ := rfl
  readerFc count b msg _ h := by
    simp only [listBuffer] at h
    split at h
    · exact (Option.some.inj h).symm
    · cases h
  readerMove _ _ _ := rfl
  read _ _ _ := ⟨rfl, rfl⟩

/-- The members of `CodecBytes` and the machine it runs on. -/
structure Config where
  host : Host
  recvUnitSize : UInt32 := 4 * 1024
  msgLenLimit : UInt32 := 32 * 1024
  deriving DecidableEq, Repr

/-- A codec as it is constructed, on a little-endian machine. -/
def defaultConfig : Config where
  host := ⟨.little, 1, 2⟩

/-- `(int)recv_unit_size_`. -/
def Config.recvUnit (cfg : Config) : Int :=
  cfg.recvUnitSize.toBitVec.toInt

/-- What the parse loop changes: the byte buffer, and the messages that the dispatcher received. -/
structure Link (β : Type*) where
  buf : β
  received : List (List UInt8)

/-- The outcome of one iteration of the parse loop. -/
inductive Iteration (β : Type*) where
  | exit (result : Bool) (link : Link β)
  | again (link : Link β)

/-- `Session`: its byte buffer, the bytes that its socket received and that were not read yet, and
the messages that its dispatcher received. -/
structure Session (β : Type*) where
  bytesBuf : Option β
  ctx : Option (List UInt8)
  dispatcher : Option (List (List UInt8))

section Decode

variable {β : Type*} (cfg : Config) (buffer : BytesBuffer β)
  (deliver : List (List UInt8) → List UInt8 → Bool)

/-- The checks of the magic word and the flags. -/
def validHeader (hdr : MsgHdr) : Bool :=
  hdr.magic = magicWord && hdr.flags[0]? = some cfg.host.endianess &&
    hdr.flags[1]? = some protocolVer && hdr.flags[2]? = some 0 && hdr.flags[3]? = some 0

/-- `total_bytes`, a 32-bit sum. -/
def totalBytes (hdr : MsgHdr) : Nat :=
  u32 (headerSize + hdr.payloadLen)

/-- One iteration of the parse loop. `deliver` is the result of `dispatcher->decode`, which may
depend on the messages received before. -/
def parseStep (link : Link β) : Iteration β :=
  match buffer.fetch headerSize link.buf with
  | none => .exit true link
  | some bytes =>
    let hdr := MsgHdr.read cfg.host bytes
    if validHeader cfg hdr = false then .exit false link
    else if 0 < cfg.msgLenLimit.toNat ∧ cfg.msgLenLimit.toNat < totalBytes hdr then
      .exit false link
    else if buffer.readable link.buf < totalBytes hdr then .exit true link
    else
      match buffer.readerFc (totalBytes hdr) link.buf with
      | none =>
        -- discontinuous memory
        let (msg, buf) := buffer.read (totalBytes hdr) link.buf
        if deliver link.received msg then .again ⟨buf, link.received ++ [msg]⟩
        else .exit false ⟨buf, link.received ++ [msg]⟩
      | some msg =>
        -- continuous memory
        let buf := buffer.readerMove (totalBytes hdr) link.buf
        if deliver link.received msg then .again ⟨buf, link.received ++ [msg]⟩
        else .exit false ⟨buf, link.received ++ [msg]⟩

/-- The parse loop. The fuel bounds its iterations; the source has no bound. -/
def parseLoop : Nat → Link β → Except Fault (Bool × Link β)
  | 0, _ => .error .diverged
  | fuel + 1, link =>
    match parseStep cfg buffer deliver link with
    | .exit result link' => .ok (result, link')
    | .again link' => parseLoop fuel link'

/-- The loop that reads from the socket into the buffer. A socket with nothing to read gives the
length `0` here, where the source gets an error code: both end the loop. -/
def readLoop : Nat → β → List UInt8 → Except Fault (β × List UInt8)
  | 0, _, _ => .error .diverged
  | fuel + 1, buf, pending =>
    if buffer.writerFc cfg.recvUnitSize.toNat buf then
      let chunk := pending.take cfg.recvUnitSize.toNat
      let buf := if 0 < chunk.length then buffer.writerMove chunk buf else buf
      let pending := pending.drop cfg.recvUnitSize.toNat
      if (chunk.length : Int) < cfg.recvUnit then .ok (buf, pending)
      else readLoop fuel buf pending
    else .ok (buf, pending)

/-- `Dispatcher::decode`: the codec `prev_` decides if there is one. At the end of the chain the
message goes to its callback, which returns nothing, and only a missing socket is an error. -/
def dispatcherDecode (codec : Option (List (List UInt8) → List UInt8 → Bool))
    (ctx : Option (List UInt8)) (received : List (List UInt8)) (msg : List UInt8) : Bool :=
  match codec with
  | some next => next received msg
  | none => ctx.isSome

/-- `CodecBytes::decode`. -/
def decode (prev : Option (List (List UInt8) → List UInt8 → Bool)) (fuel : Nat)
    (session : Session β) : Except Fault (Bool × Session β) :=
  match session.bytesBuf, session.ctx, session.dispatcher with
  | some buf, some pending, some received => do
    let (buf, pending) ← readLoop cfg buffer fuel buf pending
    let (result, link) ←
      parseLoop cfg buffer (dispatcherDecode prev session.ctx) fuel ⟨buf, received⟩
    pure (result, ⟨some link.buf, some pending, some link.received⟩)
  | _, _, _ => .ok (false, session)

/-- Chunks arrive at the socket one after the other, and `decode` is called after each one until it
fails. -/
def feed (prev : Option (List (List UInt8) → List UInt8 → Bool)) (fuel : Nat) :
    List (List UInt8) → Session β → Except Fault (Bool × Session β)
  | [], session => .ok (true, session)
  | chunk :: chunks, session => do
    let (result, session) ←
      decode cfg buffer prev fuel { session with ctx := session.ctx.map (· ++ chunk) }
    if result then feed prev fuel chunks session else pure (false, session)

end Decode

end HakunaMatata.CodecBytes
