import HakunaMatata.CodecBytes.RoundTrip
import HakunaMatata.GoCodec.RoundTrip

/-!
# The Go and the C++ codec speak the same protocol

On a little-endian machine that names its byte order 0, both encoders write the same bytes for a
message (`encode_eq_encoded`), and from the same stream both decoders deliver the same messages:
the C++ one from chunks that are cut anywhere, the Go one from any reader that supplies the stream
without an error.
-/

namespace HakunaMatata.GoCodec

open Base Bufio
open CodecBytes (Message Config BytesBuffer IdealFifo)

/-- The bytes that the Go codec writes for a message are the bytes that the C++ codec sends. -/
theorem encode_eq_encoded {host : CodecBytes.Host} (hlittle : host.endian = .little)
    (hflag : host.littleEndian = 0) (message : Message) :
    encode message.msgId message.payload = message.encoded host := by
  have hendianess : host.endianess = 0 := by simp only [CodecBytes.Host.endianess, hlittle, hflag]
  rw [message.encoded_eq, encode_eq]
  simp [MsgHdr.write, header, CodecBytes.MsgHdr.write, CodecBytes.Message.header, hlittle,
    hendianess, magicBytes, flagBytes, CodecBytes.magicWord, CodecBytes.protocolVer, u32]

/-- What a receiver of the C++ codec finds in a delivered message: the id in its header, and the
payload behind it. -/
def delivered (host : CodecBytes.Host) (frame : List UInt8) : UInt32 × List UInt8 :=
  (UInt32.ofNat (CodecBytes.MsgHdr.read host frame).msgId, frame.drop CodecBytes.headerSize)

theorem delivered_encoded (host : CodecBytes.Host) (message : Message) :
    delivered host (message.encoded host) = (message.msgId, message.payload) := by
  have hread := CodecBytes.MsgHdr.read_write host (message.header host) rfl rfl
    message.msgId.toNat_lt (Nat.mod_lt _ (Nat.two_pow_pos 32)) message.payload
  have hlen := CodecBytes.MsgHdr.length_write host (message.header host) rfl rfl
  unfold delivered
  rw [message.encoded_eq, hread, ← hlen, List.drop_left]
  simp [CodecBytes.Message.header]

/-- The two codecs agree on every sequence of messages that both allow: they encode the messages
to the same bytes, and both decode the stream of these bytes to the same sequence of ids and
payloads. -/
theorem go_cpp_agree {β σ : Type*} {cfg : Config} (hlittle : cfg.host.endian = .little)
    (hflag : cfg.host.littleEndian = 0) {buffer : BytesBuffer β} {content : β → List UInt8}
    (hfifo : IdealFifo buffer content) (hunit : 0 < cfg.recvUnit)
    {prev : Option (List (List UInt8) → List UInt8 → Bool)}
    (hprev : ∀ next ∈ prev, ∀ received msg, next received msg = true)
    {r : IoReader σ} (hlate : ∀ s, r.closing s = none) {size : Nat} (hsize : hdrSize ≤ size)
    (codec : BytesCodec) (messages : List Message)
    (hgo : ∀ m ∈ messages, m.payload.length ≤ codec.maxPayloadLimit.toNat)
    (hcpp : ∀ m ∈ messages, CodecBytes.headerSize + m.payload.length ≤ cfg.msgLenLimit.toNat)
    {buf : β} (hempty : content buf = []) {chunks : List (List UInt8)}
    (hchunks : chunks.flatten = CodecBytes.sent cfg.host messages) {s : σ}
    (hstream : r.remaining s = CodecBytes.sent cfg.host messages) {fuel : Nat}
    (hfuel : chunks.flatten.length + messages.length < fuel)
    (hloops : ∀ m ∈ messages, (m.payload.length + 1) * maxEmptyReads ≤ fuel) :
    (∀ m ∈ messages, encode m.msgId m.payload = m.encoded cfg.host) ∧
    ∃ frames buf' b',
      CodecBytes.feed cfg buffer prev fuel chunks ⟨some buf, some [], some []⟩ =
        .ok (true, ⟨some buf', some [], some frames⟩) ∧
      receive r size codec fuel messages.length ⟨[], none, s⟩ =
        .ok ⟨frames.map (delivered cfg.host), none, b'⟩ ∧
      frames.map (delivered cfg.host) = messages.map fun m => (m.msgId, m.payload) := by
  have hencode := encode_eq_encoded hlittle hflag
  refine ⟨fun m _ => hencode m, ?_⟩
  have hpairs : (messages.map (Message.encoded cfg.host)).map (delivered cfg.host) =
      messages.map fun m => (m.msgId, m.payload) := by
    simp [List.map_map, Function.comp_def, delivered_encoded]
  -- the C++ side drains the stream into the encoded messages
  have hframes : (messages.map (Message.encoded cfg.host)).length < fuel := by
    rw [List.length_map]
    omega
  have hdrains : Drains (CodecBytes.verdict cfg) (content buf ++ chunks.flatten)
      (messages.map (Message.encoded cfg.host)) true [] := by
    have hall := CodecBytes.drains_sent hcpp
      (.wait (show CodecBytes.verdict cfg [] = .wait from rfl))
    rw [List.append_nil, List.append_nil, ← hchunks] at hall
    rwa [hempty, List.nil_append]
  obtain ⟨buf', _, hfeed⟩ := CodecBytes.feed_of_drains cfg hfifo hunit hprev buf [] chunks
    (show CodecBytes.verdict cfg (content buf) = .wait by rw [hempty]; rfl) hdrains
    (show chunks.flatten.length < fuel by omega) hframes
  -- the Go side receives the same messages
  have hsent : sent (messages.map fun m => (m.msgId, m.payload)) =
      CodecBytes.sent cfg.host messages := by
    simp [sent, CodecBytes.sent, List.map_map, Function.comp_def, hencode]
  have hserves := serves_start r size (hlate s)
  rw [hstream, ← hsent, ← List.append_nil (sent _)] at hserves
  have hallowed : ∀ p ∈ messages.map fun m => (m.msgId, m.payload), Allowed codec p.2 := by
    intro p hp
    obtain ⟨m, hm, rfl⟩ := List.mem_map.mp hp
    have hfits := Message.payload_lt (hcpp m hm)
    exact ⟨Nat.lt_of_le_of_lt (Nat.le_add_left _ _) hfits, fun _ => hgo m hm⟩
  have hbound : ∀ p ∈ messages.map fun m => (m.msgId, m.payload),
      (p.2.length + 1) * maxEmptyReads ≤ fuel := by
    intro p hp
    obtain ⟨m, hm, rfl⟩ := List.mem_map.mp hp
    exact hloops m hm
  obtain ⟨b', hreceive, _⟩ := receive_all hlate hsize hallowed hbound hserves
  rw [List.length_map] at hreceive
  exact ⟨_, buf', b', hfeed, by rw [List.nil_append, hpairs]; exact hreceive, hpairs⟩

/-- The members of a C++ codec on a little-endian machine that names its byte order 0. -/
def littleConfig : Config where
  host := ⟨.little, 0, 1⟩

/-- Two messages, the second without a payload. They arrive in two chunks on one side, and seven
bytes at a time on the other. -/
theorem go_cpp_agree_two :
    ∃ frames buf' b',
      CodecBytes.feed littleConfig (CodecBytes.listBuffer 17) none 300
          [[0x44, 0x45, 0x4D, 0x4F, 0], [1, 0, 0, 7, 0, 0, 0, 2, 0, 0, 0, 0xAA, 0xBB,
            0x44, 0x45, 0x4D, 0x4F, 0, 1, 0, 0, 8, 0, 0, 0, 0, 0, 0, 0]]
          ⟨some [], some [], some []⟩ =
        .ok (true, ⟨some buf', some [], some frames⟩) ∧
      receive (supplyReader 6) 4096 ⟨1024⟩ 300 2
          ⟨[], none, CodecBytes.sent littleConfig.host [⟨7, [0xAA, 0xBB]⟩, ⟨8, []⟩]⟩ =
        .ok ⟨frames.map (delivered littleConfig.host), none, b'⟩ ∧
      frames.map (delivered littleConfig.host) = [(7, [0xAA, 0xBB]), (8, [])] :=
  (go_cpp_agree (show littleConfig.host.endian = .little from rfl) rfl
    (CodecBytes.listBuffer_ideal 17) (by decide) (by simp)
    (fun _ => rfl) (by decide) ⟨1024⟩ [⟨7, [0xAA, 0xBB]⟩, ⟨8, []⟩] (by decide) (by decide) rfl
    (by decide) rfl (by decide) (by decide)).2

end HakunaMatata.GoCodec
