import HakunaMatata.CodecBytes.Parsing

/-!
# A stream of encoded messages arrives as it was sent

The sender encodes messages one after the other; the stream arrives in chunks that are cut
anywhere, and `decode` is called after each chunk. Read `verdict_encoded` first: an encoded message
is taken whole, whatever follows it. `decode_stream_round_trip` is the round trip of the codec.
-/

namespace HakunaMatata.CodecBytes

open Base

theorem MsgHdr.length_write (host : Host) (hdr : MsgHdr) (hmagic : hdr.magic.length = 4)
    (hflags : hdr.flags.length = 4) : (hdr.write host).length = headerSize := by
  simp [MsgHdr.write, hmagic, hflags, headerSize]

theorem MsgHdr.read_write (host : Host) (hdr : MsgHdr) (hmagic : hdr.magic.length = 4)
    (hflags : hdr.flags.length = 4) (hid : hdr.msgId < 2 ^ 32) (hlen : hdr.payloadLen < 2 ^ 32)
    (tail : List UInt8) : MsgHdr.read host (hdr.write host ++ tail) = hdr := by
  have hidWord : loadWord host.endian (storeWord host.endian 4 hdr.msgId) = hdr.msgId :=
    loadWord_storeWord host.endian hid
  have hlenWord : loadWord host.endian (storeWord host.endian 4 hdr.payloadLen) =
      hdr.payloadLen := loadWord_storeWord host.endian hlen
  simp [MsgHdr.read, MsgHdr.write, List.drop_append, List.drop_of_length_le, hmagic, hflags,
    hidWord, hlenWord]

/-- The header that `encode` writes for a message. -/
def Message.header (host : Host) (message : Message) : MsgHdr :=
  ⟨magicWord, [host.endianess, protocolVer, 0, 0], message.msgId.toNat,
    u32 message.payload.length⟩

theorem Message.encoded_eq (host : Host) (message : Message) :
    message.encoded host = (message.header host).write host ++ message.payload := by
  have hid : message.msgId.toNat < 2 ^ 32 := message.msgId.toNat_lt
  have hread := MsgHdr.read_write host
    ⟨List.replicate 4 0, List.replicate 4 0, message.msgId.toNat, 0⟩ rfl rfl hid
    (show 0 < 2 ^ 32 by decide) message.payload
  have hlen := MsgHdr.length_write host
    ⟨List.replicate 4 0, List.replicate 4 0, message.msgId.toNat, 0⟩ rfl rfl
  have hpayload : u32 (headerSize + message.payload.length + (2 ^ 32 - headerSize)) =
      u32 message.payload.length := by
    unfold u32 headerSize
    omega
  unfold Message.encoded encode newStackMsg
  rw [hread, List.length_append, hlen, hpayload, ← hlen, List.drop_left]
  rfl

theorem Message.length_encoded (host : Host) (message : Message) :
    (message.encoded host).length = headerSize + message.payload.length := by
  rw [message.encoded_eq host, List.length_append, MsgHdr.length_write host _ rfl rfl]

theorem Message.payload_lt {cfg : Config} {message : Message}
    (hsize : headerSize + message.payload.length ≤ cfg.msgLenLimit.toNat) :
    headerSize + message.payload.length < 2 ^ 32 :=
  Nat.lt_of_le_of_lt hsize cfg.msgLenLimit.toNat_lt

theorem verdict_encoded {cfg : Config} {message : Message}
    (hsize : headerSize + message.payload.length ≤ cfg.msgLenLimit.toNat) :
    verdict cfg (message.encoded cfg.host) = .take (message.encoded cfg.host).length := by
  have hfits := Message.payload_lt hsize
  have hid : message.msgId.toNat < 2 ^ 32 := message.msgId.toNat_lt
  have hheader : frontHeader cfg (message.encoded cfg.host) = message.header cfg.host := by
    have hread := MsgHdr.read_write cfg.host (message.header cfg.host) rfl rfl hid
      (Nat.mod_lt _ (by decide)) []
    rw [frontHeader, message.encoded_eq,
      ← MsgHdr.length_write cfg.host (message.header cfg.host) rfl rfl, List.take_left]
    rwa [List.append_nil] at hread
  have hvalid : validHeader cfg (message.header cfg.host) = true := by
    simp [validHeader, Message.header]
  have htotal : totalBytes (message.header cfg.host) = headerSize + message.payload.length := by
    have hpayload : u32 message.payload.length = message.payload.length := u32_of_lt (by omega)
    simp only [totalBytes, Message.header]
    rw [hpayload, u32_of_lt hfits]
  rw [verdict_eq_take_iff, Accepted, hheader, htotal, message.length_encoded]
  exact ⟨⟨Nat.le_add_right _ _, hvalid⟩, rfl, fun _ => hsize, Nat.le_refl _⟩

/-- Wrong magic or flag bytes are rejected, whatever follows them. -/
theorem verdict_of_invalid {cfg : Config} {header : List UInt8} (hlen : header.length = headerSize)
    (hinvalid : validHeader cfg (MsgHdr.read cfg.host header) = false) (tail : List UInt8) :
    verdict cfg (header ++ tail) = .reject := by
  have hread : (header ++ tail).take headerSize = header := by rw [← hlen, List.take_left]
  unfold verdict frontHeader
  rw [hread, if_neg (by rw [List.length_append]; omega), if_pos hinvalid]

section Stream

variable {β : Type*} {cfg : Config} {buffer : BytesBuffer β} {content : β → List UInt8}
  {prev : Option (List (List UInt8) → List UInt8 → Bool)}

/-- The byte stream that is sent for these messages. -/
def sent (host : Host) (messages : List Message) : List UInt8 :=
  (messages.map (Message.encoded host)).flatten

/-- These bytes are nothing, or the beginning of the next message. -/
def Incomplete (host : Host) (next : List Message) (bytes : List UInt8) : Prop :=
  bytes = [] ∨ ∃ message more, next = message :: more ∧ bytes <+: message.encoded host ∧
    bytes.length < (message.encoded host).length

theorem verdict_sent {messages : List Message}
    (hsize : ∀ m ∈ messages, headerSize + m.payload.length ≤ cfg.msgLenLimit.toNat) :
    ∀ frame ∈ messages.map (Message.encoded cfg.host), verdict cfg frame = .take frame.length := by
  intro frame hframe
  obtain ⟨message, hmessage, rfl⟩ := List.mem_map.mp hframe
  exact verdict_encoded (hsize message hmessage)

/-- Sent messages are taken in order, before whatever follows them. -/
theorem drains_sent {messages : List Message}
    (hsize : ∀ m ∈ messages, headerSize + m.payload.length ≤ cfg.msgLenLimit.toNat)
    {xs : List UInt8} {frames : List (List UInt8)} {ok : Bool} {rest : List UInt8}
    (h : Drains (verdict cfg) xs frames ok rest) :
    Drains (verdict cfg) (sent cfg.host messages ++ xs)
      (messages.map (Message.encoded cfg.host) ++ frames) ok rest :=
  h.flatten_append (verdict_stable cfg) (verdict_sent hsize)

/-- The first part of a sent stream is cut into whole messages and an incomplete one. -/
theorem drains_part {messages : List Message}
    (hsize : ∀ m ∈ messages, headerSize + m.payload.length ≤ cfg.msgLenLimit.toNat)
    {xs : List UInt8} (h : xs <+: sent cfg.host messages) :
    ∃ done next rest, messages = done ++ next ∧ xs = sent cfg.host done ++ rest ∧
      Incomplete cfg.host next rest ∧
      Drains (verdict cfg) xs (done.map (Message.encoded cfg.host)) true rest := by
  obtain ⟨more, hmore⟩ := h
  obtain ⟨done, next, rest, rfl, hdrains, hnext, hrest⟩ :=
    drains_of_flatten (verdict_stable cfg) (verdict_bounded cfg) rfl
      (fun message hmessage => verdict_encoded (hsize message hmessage)) hmore
  have hxs : xs = sent cfg.host done ++ rest := by
    rw [sent, List.map_append, List.flatten_append, ← hnext, ← List.append_assoc] at hmore
    exact List.append_cancel_right hmore
  exact ⟨done, next, rest, rfl, hxs, hrest, hdrains⟩

/-- The round trip of the codec, for every cutting of the stream into chunks. After any part of
the stream the messages that are complete were delivered, in order and byte for byte, and only the
beginning of the next one is buffered; after the whole stream every message was delivered; and
if a header with wrong magic or flag bytes follows, every message was delivered and `decode`
returns false. -/
theorem decode_stream_round_trip (hfifo : IdealFifo buffer content) (hunit : 0 < cfg.recvUnit)
    (hprev : ∀ next ∈ prev, ∀ received msg, next received msg = true) (messages : List Message)
    (hsize : ∀ m ∈ messages, headerSize + m.payload.length ≤ cfg.msgLenLimit.toNat) (buf : β)
    (hempty : content buf = []) (chunks : List (List UInt8)) (fuel : Nat)
    (hfuel : chunks.flatten.length + messages.length < fuel) :
    (chunks.flatten <+: sent cfg.host messages →
      ∃ done next buf', messages = done ++ next ∧
        feed cfg buffer prev fuel chunks ⟨some buf, some [], some []⟩ =
          .ok (true, ⟨some buf', some [], some (done.map (Message.encoded cfg.host))⟩) ∧
        chunks.flatten = sent cfg.host done ++ content buf' ∧
        Incomplete cfg.host next (content buf')) ∧
    (chunks.flatten = sent cfg.host messages →
      ∃ buf', feed cfg buffer prev fuel chunks ⟨some buf, some [], some []⟩ =
          .ok (true, ⟨some buf', some [], some (messages.map (Message.encoded cfg.host))⟩) ∧
        content buf' = []) ∧
    (∀ header tail, header.length = headerSize →
      validHeader cfg (MsgHdr.read cfg.host header) = false →
      chunks.flatten = sent cfg.host messages ++ header ++ tail →
      ∃ buf', feed cfg buffer prev fuel chunks ⟨some buf, some [], some []⟩ =
        .ok (false, ⟨some buf', some [], some (messages.map (Message.encoded cfg.host))⟩)) := by
  have hwait : verdict cfg (content buf) = .wait := by rw [hempty]; rfl
  have hstart : content buf ++ chunks.flatten = chunks.flatten := by rw [hempty, List.nil_append]
  have hfeed := @feed_of_drains β cfg buffer content prev hfifo hunit hprev buf [] chunks
  rw [hstart] at hfeed
  have hchunks : chunks.flatten.length < fuel := by omega
  have hall : (messages.map (Message.encoded cfg.host)).length < fuel := by
    rw [List.length_map]
    omega
  refine ⟨?_, ?_, ?_⟩
  · intro hpart
    obtain ⟨done, next, rest, rfl, hxs, hincomplete, hdrains⟩ := drains_part hsize hpart
    have hdone : (done.map (Message.encoded cfg.host)).length < fuel := by
      rw [List.length_map] at hall ⊢
      rw [List.length_append] at hall
      omega
    obtain ⟨buf', hrest, hcall⟩ := hfeed hwait hdrains hchunks hdone
    rw [← hrest rfl] at hxs hincomplete
    exact ⟨done, next, buf', rfl, hcall, hxs, hincomplete⟩
  · intro hwhole
    have hnothing : Drains (verdict cfg) [] [] true [] := .wait rfl
    have hdrains := drains_sent hsize hnothing
    rw [List.append_nil, List.append_nil, ← hwhole] at hdrains
    obtain ⟨buf', hrest, hcall⟩ := hfeed hwait hdrains hchunks hall
    exact ⟨buf', hcall, hrest rfl⟩
  · intro header tail hlen hinvalid hstream
    have hdrains := drains_sent hsize (.reject (verdict_of_invalid hlen hinvalid tail))
    rw [List.append_nil, ← List.append_assoc, ← hstream] at hdrains
    obtain ⟨buf', _, hcall⟩ := hfeed hwait hdrains hchunks hall
    exact ⟨buf', hcall⟩

/-- Two messages that arrive in three chunks, with a buffer that hands out at most 17 contiguous
bytes: the first message is copied, the second is not. -/
theorem decode_stream_round_trip_two :
    ∃ buf', feed defaultConfig (listBuffer 17) none 64
        [[0x44, 0x45, 0x4D, 0x4F, 1], [1, 0, 0, 7, 0, 0, 0, 2, 0, 0, 0, 0xAA, 0xBB, 0x44, 0x45],
          [0x4D, 0x4F, 1, 1, 0, 0, 8, 0, 0, 0, 0, 0, 0, 0]] ⟨some [], some [], some []⟩ =
        .ok (true, ⟨some buf', some [], some (([⟨7, [0xAA, 0xBB]⟩, ⟨8, []⟩] : List Message).map
          (Message.encoded defaultConfig.host))⟩) ∧ buf' = [] :=
  (decode_stream_round_trip (listBuffer_ideal 17) (by decide) (by simp)
    [⟨7, [0xAA, 0xBB]⟩, ⟨8, []⟩] (by decide) [] rfl _ 64 (by decide)).2.1 (by decide)

end Stream

end HakunaMatata.CodecBytes
