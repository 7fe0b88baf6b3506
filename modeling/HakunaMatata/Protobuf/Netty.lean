import HakunaMatata.Base.Netty
import HakunaMatata.Protobuf.Decoder

/-!
# The Java codec for connections, `codec.netty`

A frame is its total length, the length of the name, the full name of the message type and the
data. `decode` is called by Netty with the bytes that have arrived; it looks at the length
without reading it and returns if the frame is not complete. `fragmented_round_trip` is the round
trip for every cutting of the stream.
-/

namespace HakunaMatata.Protobuf.Netty

open Base Base.Java
open Base.Netty

variable {M D : Type} (runtime : Runtime M D) (decoder : Decoder M D)

/-- `ProtobufEncoder.encode`: the bytes that are written. -/
def encode (message : M) : List UInt8 :=
  let bytes := runtime.toByteArray message
  let msgFullName := runtime.fullName message
  let nameLen := length16 msgFullName
  let totalLen := i32 (4 + 4 + nameLen + bytes.length)
  intBytes totalLen ++ (intBytes nameLen ++ (utf8 msgFullName ++ bytes))

/-- `ProtobufDecoder.decode`: the buffer afterwards, and what was added to `out`. -/
def decode (buf : ByteBuf) : Except Thrown (ByteBuf × List M) :=
  if buf.readableBytes < 4 then .ok (buf, [])
  else do
    let totalLen ← buf.getInt buf.readerIndex
    if totalLen > decoder.totalLenLimit then DecodeError.lenBeyondLimit.throw
    else if totalLen > buf.readableBytes then pure (buf, [])
    else if totalLen < 4 + 4 then DecodeError.lenTooSmall.throw
    else do
      let totalLen ← buf.readInt
      let nameLen ← totalLen.2.readInt
      if nameLen.1 > decoder.nameLenLimit then DecodeError.nameLenBeyondLimit.throw
      else if nameLen.1 ≤ 0 then DecodeError.nameLenTooSmall.throw
      else if totalLen.1 < i32 (4 + 4 + nameLen.1) then DecodeError.lenTooSmall.throw
      else do
        let nameSize ← newBytes nameLen.1
        if nameLen.1 > nameLen.2.readableBytes then DecodeError.restByteLTNameLen.throw
        else do
          let nameBytes ← nameLen.2.readBytes nameSize
          let name := runtime.newString nameBytes.1
          let dataLen := i32 (totalLen.1 - i32 (4 + 4 + nameLen.1))
          if dataLen > 0 then
            if dataLen > nameBytes.2.readableBytes then DecodeError.restByteLTDataLen.throw
            else do
              let dataSize ← newBytes dataLen
              let data ← nameBytes.2.readBytes dataSize
              let message ← parse runtime decoder name (some data.1)
              pure (data.2, [message])
          else if dataLen = 0 then do
            let message ← parse runtime decoder name none
            pure (nameBytes.2, [message])
          else DecodeError.failedParseData.throw

/-- The number of bytes of a frame besides the name and the data. -/
def overhead : Nat := 4 + 4

variable {runtime decoder} {message : M}

theorem length_encode (hascii : Ascii (runtime.fullName message)) :
    (encode runtime message).length =
      8 + length16 (runtime.fullName message) + (runtime.toByteArray message).length := by
  simp only [encode, List.length_append, length_intBytes, length_utf8 hascii]
  omega

theorem encode_eq (hallowed : Allowed runtime decoder overhead message) :
    encode runtime message = intBytes (encode runtime message).length ++
      (intBytes (length16 (runtime.fullName message)) ++
        (utf8 (runtime.fullName message) ++ runtime.toByteArray message)) := by
  have hsize : 8 + length16 (runtime.fullName message) +
    (runtime.toByteArray message).length ≤ 4096 := hallowed.size_le
  have htotal : i32 (4 + 4 + length16 (runtime.fullName message) +
      (runtime.toByteArray message).length) = (encode runtime message).length := by
    rw [length_encode hallowed.ascii, i32_of_lt (by omega) (by omega)]
    omega
  rw [← htotal, encode]

theorem decode_part (hlimits : DefaultLimits decoder)
    (hallowed : Allowed runtime decoder overhead message) {buf : ByteBuf}
    (hpart : buf.readable <+: encode runtime message)
    (hlt : buf.readable.length < (encode runtime message).length) :
    decode runtime decoder buf = .ok (buf, []) := by
  have hsize : 8 + length16 (runtime.fullName message) +
    (runtime.toByteArray message).length ≤ 4096 := hallowed.size_le
  have hlength := length_encode hallowed.ascii
  have hlimit := hlimits.1
  have hcount := buf.length_readable
  unfold decode
  by_cases hshort : buf.readableBytes < 4
  · rw [if_pos hshort]
  · rw [encode_eq hallowed] at hpart
    obtain ⟨front, hfront⟩ := List.prefix_of_prefix_length_le (List.prefix_append _ _) hpart
      (by rw [length_intBytes]; omega)
    rw [if_neg hshort, ByteBuf.getInt_readerIndex (by omega) hfront.symm, ok_bind,
      if_neg (by omega), if_pos (by omega)]
    rfl

theorem decode_whole (hlawful : Lawful runtime decoder) (hlimits : DefaultLimits decoder)
    (hallowed : Allowed runtime decoder overhead message) {buf : ByteBuf} {rest : List UInt8}
    (hbuf : buf.readable = encode runtime message ++ rest) :
    ∃ buf', decode runtime decoder buf = .ok (buf', [message]) ∧ buf'.readable = rest := by
  have hsize : 8 + length16 (runtime.fullName message) +
    (runtime.toByteArray message).length ≤ 4096 := hallowed.size_le
  have hpos := hallowed.name_pos
  have hname := hallowed.name_le
  obtain ⟨htotalLimit, hnameLimit⟩ := hlimits
  have hlength := length_encode hallowed.ascii
  have hutf := length_utf8 hallowed.ascii
  have hcount := congrArg List.length hbuf
  rw [ByteBuf.length_readable, List.length_append] at hcount
  rw [encode_eq hallowed] at hbuf
  simp only [List.append_assoc] at hbuf
  obtain ⟨buf₁, htotal, hbuf₁⟩ := ByteBuf.readInt_append (by omega) hbuf
  obtain ⟨buf₂, hnameLen, hbuf₂⟩ := ByteBuf.readInt_append (by omega) hbuf₁
  obtain ⟨buf₃, hnameBytes, hbuf₃⟩ := ByteBuf.readBytes_append hbuf₂
  have hcount₂ := congrArg List.length hbuf₂
  rw [ByteBuf.length_readable, List.length_append, hutf] at hcount₂
  have hcount₃ := congrArg List.length hbuf₃
  rw [ByteBuf.length_readable, List.length_append] at hcount₃
  rw [hutf] at hnameBytes
  have hhead : i32 (4 + 4 + (length16 (runtime.fullName message) : Int)) =
      8 + length16 (runtime.fullName message) := by
    rw [i32_of_lt (by omega) (by omega)]
    omega
  have hdata : i32 (((encode runtime message).length : Int) -
      (8 + length16 (runtime.fullName message))) = (runtime.toByteArray message).length := by
    rw [i32_of_lt (by omega) (by omega)]
    omega
  unfold decode
  rw [if_neg (by omega), ByteBuf.getInt_readerIndex (by omega) hbuf, ok_bind, if_neg (by omega),
    if_neg (by omega), if_neg (by omega), htotal, ok_bind, hnameLen, ok_bind]
  simp only [hhead, hdata]
  rw [if_neg (by omega), if_neg (by omega), if_neg (by omega), newBytes, if_neg (by omega), ok_bind,
    if_neg (by omega), Int.toNat_natCast, hnameBytes, ok_bind]
  simp only [hlawful.newString _ hallowed.ascii]
  by_cases hempty : (runtime.toByteArray message).length = 0
  · have hnil := List.length_eq_zero_iff.mp hempty
    refine ⟨buf₃, ?_, by rw [hbuf₃, hnil, List.nil_append]⟩
    rw [if_neg (by omega), if_pos (by omega),
      parse_toByteArray hlawful hallowed.registered (by rw [hnil]; rfl), ok_bind]
    rfl
  · obtain ⟨buf₄, hdataBytes, hbuf₄⟩ := ByteBuf.readBytes_append hbuf₃
    refine ⟨buf₄, ?_, hbuf₄⟩
    rw [if_pos (by omega), if_neg (by omega), newBytes, if_neg (by omega), ok_bind,
      Int.toNat_natCast, hdataBytes, ok_bind, parse_toByteArray hlawful hallowed.registered rfl,
      ok_bind]
    rfl

theorem reads_frame (hlawful : Lawful runtime decoder) (hlimits : DefaultLimits decoder)
    (hallowed : Allowed runtime decoder overhead message) :
    Reads (decode runtime decoder) (encode runtime) id message where
  nonempty := by
    rw [length_encode hallowed.ascii]
    omega
  whole _ _ hbuf := decode_whole hlawful hlimits hallowed hbuf
  part _ hpart hlt := decode_part hlimits hallowed hpart hlt

/-- For allowed messages and every cutting of the stream of their frames into chunks, with any
amount of read bytes discarded between the chunks, the decoder emits exactly the messages, each once
and in order, throws nothing, and leaves no byte unread. -/
theorem fragmented_round_trip (hlawful : Lawful runtime decoder) (hlimits : DefaultLimits decoder)
    (messages : List M) (hallowed : ∀ m ∈ messages, Allowed runtime decoder overhead m)
    (chunks : List Chunk)
    (hstream : (chunks.map Chunk.bytes).flatten = (messages.map (encode runtime)).flatten)
    (buf : ByteBuf) (hempty : buf.readable = []) (fuel : Nat) (hfuel : messages.length < fuel) :
    ∃ buf', feed (decode runtime decoder) fuel chunks buf = .ok (buf', messages) ∧
      buf'.readable = [] := by
  obtain ⟨buf', hfeed, hread⟩ := feed_frames messages
    (fun m hm => reads_frame hlawful hlimits (hallowed m hm)) chunks hempty hstream hfuel
  rw [List.map_id] at hfeed
  exact ⟨buf', hfeed, hread⟩

/-- Two messages in three chunks that are cut inside a length word and inside the data; all read
bytes are discarded before the last chunk. -/
theorem fragmented_round_trip_two :
    ∃ buf', feed (decode plainRuntime (plainDecoder "Foo")) 3
        [⟨0, [0, 0]⟩, ⟨0, [0, 13, 0, 0, 0, 3, 70, 111, 111, 8]⟩,
          ⟨13, [1, 0, 0, 0, 11, 0, 0, 0, 3, 70, 111, 111]⟩] ⟨[], 0, Nat.le_refl 0⟩ =
      .ok (buf', [⟨"Foo", [8, 1]⟩, ⟨"Foo", []⟩]) ∧ buf'.readable = [] := by
  have hallowed : ∀ m ∈ [Plain.mk "Foo" [8, 1], Plain.mk "Foo" []],
      Allowed plainRuntime (plainDecoder "Foo") overhead m := by
    intro m hm
    simp only [List.mem_cons, List.not_mem_nil, or_false] at hm
    rcases hm with rfl | rfl <;> apply plainDecoder_allowed <;> decide
  refine fragmented_round_trip (plainDecoder_lawful "Foo") ⟨rfl, rfl⟩ _ hallowed _ ?_ _ rfl 3
    (by decide)
  simp only [List.map_cons, List.map_nil]
  rw [encode_eq (hallowed ⟨"Foo", [8, 1]⟩ (by simp)), encode_eq (hallowed ⟨"Foo", []⟩ (by simp)),
    length_encode (by decide), length_encode (by decide)]
  decide

end HakunaMatata.Protobuf.Netty
