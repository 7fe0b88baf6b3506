import HakunaMatata.Base.Netty

/-!
# The string codec, `MessageEncode.java` and `MessageDecode.java`

A string is sent as the length of its UTF-8 bytes and these bytes. The decoder looks for the
length at index 0 of the buffer, where the first frame of the buffer begins, and not at the
reader index; and it adds 4 to the length as an `int`. `idealDecode` is the decoder that looks at
the length of the frame at the reader index. A call agrees with it exactly if the two lengths lead
to the same decision (`decode_eq_ideal_iff`).
-/

namespace HakunaMatata.UseNetty

open Base Base.Java
open Base.Netty

/-- The two conversions between strings and their UTF-8 bytes. -/
structure Charset (S : Type) where
  getBytes : S → List UInt8
  newString : List UInt8 → S

variable {S : Type} (charset : Charset S)

/-- `MessageEncode.encode`. -/
def encode (msg : S) : List UInt8 :=
  let bytes := charset.getBytes msg
  intBytes bytes.length ++ bytes

/-- `MessageDecode.decode`: the buffer afterwards, and what was added to `out`. -/
def decode (buf : ByteBuf) : Except Thrown (ByteBuf × List S) :=
  if buf.readableBytes < 4 then .ok (buf, [])
  else do
    let len ← buf.getInt 0
    if (buf.readableBytes : Int) < i32 (len + 4) then pure (buf, [])
    else do
      let len ← buf.readInt
      let size ← newBytes len.1
      let bytes ← len.2.readBytes size
      pure (bytes.2, [charset.newString bytes.1])

/-- The length of the first frame in the buffer. -/
def firstLen (buf : ByteBuf) : Int :=
  intOf (buf.data.take 4)

/-- The length of the frame at the reader index. -/
def nextLen (buf : ByteBuf) : Int :=
  intOf (buf.readable.take 4)

/-- The frame at the reader index is not complete, or it never will be. -/
def Waits (buf : ByteBuf) : Prop :=
  nextLen buf < 0 ∨ (buf.readableBytes : Int) < nextLen buf + 4

instance (buf : ByteBuf) : Decidable (Waits buf) :=
  inferInstanceAs (Decidable (_ ∨ _))

/-- The call takes the frame at the reader index: the buffer behind it, and its string. -/
def takeFrame (buf : ByteBuf) : ByteBuf × List S :=
  (buf.skip (4 + (nextLen buf).toNat),
    [charset.newString ((buf.readable.drop 4).take (nextLen buf).toNat)])

/-- The decoder that decides by the frame at the reader index. -/
def idealDecode (buf : ByteBuf) : ByteBuf × List S :=
  if buf.readableBytes < 4 ∨ Waits buf then (buf, []) else takeFrame charset buf

/-- The first length in the buffer leads to the decision that the frame at the reader index calls
for. -/
def Decides (buf : ByteBuf) : Prop :=
  4 ≤ buf.readableBytes → ((buf.readableBytes : Int) < i32 (firstLen buf + 4) ↔ Waits buf)

instance : DecidablePred Decides :=
  fun _ => inferInstanceAs (Decidable (_ → _))

/-- The call waits, or the frame at the reader index is complete. -/
def Safe (buf : ByteBuf) : Prop :=
  4 ≤ buf.readableBytes → (buf.readableBytes : Int) < i32 (firstLen buf + 4) ∨ ¬ Waits buf

variable {charset} {buf : ByteBuf}

/-- What a call does, by the two lengths. -/
theorem decode_eq (hfour : 4 ≤ buf.readableBytes) :
    decode charset buf =
      if (buf.readableBytes : Int) < i32 (firstLen buf + 4) then .ok (buf, [])
      else if nextLen buf < 0 then .error .negativeArraySize
      else if (buf.readableBytes : Int) < nextLen buf + 4 then .error .indexOutOfBounds
      else .ok (takeFrame charset buf) := by
  have hindex : 0 + 4 ≤ buf.data.length := by
    unfold ByteBuf.readableBytes at hfour
    omega
  have hfirst : buf.getInt 0 = .ok (firstLen buf) := if_pos hindex
  have hnext : buf.readInt = .ok (nextLen buf, buf.skip 4) := by
    rw [ByteBuf.readInt, ByteBuf.readBytes_eq, if_pos hfour]
    rfl
  rw [decode, if_neg (by omega), hfirst, ok_bind, hnext, ok_bind]
  refine ite_congr rfl (fun _ => rfl) fun _ => ?_
  by_cases hneg : nextLen buf < 0
  · rw [newBytes, if_pos hneg, if_pos hneg]
    rfl
  · rw [newBytes, if_neg hneg, if_neg hneg, ok_bind, ByteBuf.readBytes_eq,
      ByteBuf.readableBytes_skip, ByteBuf.readable_skip, ByteBuf.skip_skip]
    by_cases hpart : (buf.readableBytes : Int) < nextLen buf + 4
    · rw [if_neg (by omega), if_pos hpart]
      rfl
    · rw [if_pos (by omega), if_neg hpart]
      rfl

theorem decode_of_lt (h : buf.readableBytes < 4) : decode charset buf = .ok (buf, []) :=
  if_pos h

/-- A call does what the frame at the reader index calls for exactly if the first length in the
buffer leads to the same decision. -/
theorem decode_eq_ideal_iff :
    decode charset buf = .ok (idealDecode charset buf) ↔ Decides buf := by
  unfold Decides idealDecode
  by_cases hfour : 4 ≤ buf.readableBytes
  · have hlong : ¬ buf.readableBytes < 4 := by omega
    rw [decode_eq hfour]
    generalize i32 (firstLen buf + 4) = limit
    unfold Waits
    by_cases hwait : (buf.readableBytes : Int) < limit <;> by_cases hneg : nextLen buf < 0 <;>
      by_cases hpart : (buf.readableBytes : Int) < nextLen buf + 4 <;>
      simp [hfour, hlong, hwait, hneg, hpart, takeFrame]
  · have hshort : buf.readableBytes < 4 := by omega
    simp [decode_of_lt hshort, hshort, hfour]

/-- A call throws nothing exactly if it waits or the frame at the reader index is complete. -/
theorem decode_ok_iff : (∃ call, decode charset buf = .ok call) ↔ Safe buf := by
  unfold Safe
  by_cases hfour : 4 ≤ buf.readableBytes
  · rw [decode_eq hfour]
    generalize i32 (firstLen buf + 4) = limit
    unfold Waits
    by_cases hwait : (buf.readableBytes : Int) < limit <;> by_cases hneg : nextLen buf < 0 <;>
      by_cases hpart : (buf.readableBytes : Int) < nextLen buf + 4 <;>
      simp [hfour, hwait, hneg, hpart]
  · simp [decode_of_lt (show buf.readableBytes < 4 by omega), hfour]

/-- A call that throws nothing leaves the buffer alone or reads at least the length. -/
theorem decode_progress (h : Safe buf) :
    ∃ call, decode charset buf = .ok call ∧
      (call = (buf, []) ∨ call.1.readableBytes < buf.readableBytes) := by
  obtain ⟨call, hcall⟩ := decode_ok_iff.mpr h
  refine ⟨call, hcall, ?_⟩
  by_cases hfour : 4 ≤ buf.readableBytes
  · rw [decode_eq hfour] at hcall
    split at hcall
    · exact Or.inl (Except.ok.inj hcall).symm
    · split at hcall
      · cases hcall
      · split at hcall
        · cases hcall
        · right
          rw [← Except.ok.inj hcall, takeFrame, ByteBuf.readableBytes_skip]
          omega
  · rw [decode_of_lt (by omega)] at hcall
    exact Or.inl (Except.ok.inj hcall).symm

/-! ## Frames -/

variable {msg : S} {rest : List UInt8}

theorem length_encode : (encode charset msg).length = 4 + (charset.getBytes msg).length := by
  rw [encode, List.length_append, length_intBytes]

/-- The length of the frame at the reader index is found as soon as four of its bytes are there. -/
theorem nextLen_of_prefix (hmsg : (charset.getBytes msg).length < 2 ^ 31)
    (h : intBytes (charset.getBytes msg).length <+: buf.readable) :
    nextLen buf = (charset.getBytes msg).length := by
  obtain ⟨tail, htail⟩ := h
  rw [nextLen, ← htail, List.take_left' (length_intBytes _), intOf_intBytes hmsg]

/-- The decoder that decides by the frame at the reader index reads the frames of strings. -/
theorem ideal_reads (hmsg : (charset.getBytes msg).length < 2 ^ 31) :
    Reads (fun buf => .ok (idealDecode charset buf)) (encode charset)
      (fun msg => charset.newString (charset.getBytes msg)) msg where
  nonempty := by
    rw [length_encode]
    omega
  whole buf rest hbuf := by
    have hcount := congrArg List.length hbuf
    rw [ByteBuf.length_readable, List.length_append, length_encode] at hcount
    rw [encode, List.append_assoc] at hbuf
    have hnext : nextLen buf = (charset.getBytes msg).length :=
      nextLen_of_prefix hmsg ⟨_, hbuf.symm⟩
    have htakes : ¬ (buf.readableBytes < 4 ∨ Waits buf) := by
      rw [Waits, hnext]
      omega
    have hdrop : buf.readable.drop 4 = charset.getBytes msg ++ rest := by
      rw [hbuf, List.drop_left' (length_intBytes _)]
    refine ⟨buf.skip (4 + (charset.getBytes msg).length), ?_, ?_⟩
    · simp only [idealDecode, if_neg htakes, takeFrame, hnext, Int.toNat_natCast, hdrop,
        List.take_left]
    · rw [ByteBuf.readable_skip, ← List.drop_drop, hdrop, List.drop_left]
  part buf hpart hlt := by
    have hcount := buf.length_readable
    rw [length_encode] at hlt
    refine congrArg Except.ok (if_pos ?_)
    by_cases hshort : buf.readableBytes < 4
    · exact Or.inl hshort
    · have hprefix := List.prefix_of_prefix_length_le (List.prefix_append _ _) hpart
        (by rw [length_intBytes]; omega)
      right
      rw [Waits, nextLen_of_prefix hmsg hprefix]
      omega

/-- The decoder by its calls and by its runs. A call agrees with the decoder that looks at the
reader index exactly if the first length in the buffer leads to the same decision, and it throws
nothing exactly if it waits or the frame is complete. If all calls of a run agree, the strings of
a stream that is cut anywhere are emitted, each once and in order; if all calls of a run on any
bytes are safe, nothing is thrown. -/
theorem message_decode_iff (charset : Charset S) :
    (∀ buf, decode charset buf = .ok (idealDecode charset buf) ↔ Decides buf) ∧
    (∀ buf, (∃ call, decode charset buf = .ok call) ↔ Safe buf) ∧
    (∀ (msgs : List S) (chunks : List Chunk) (buf : ByteBuf) (fuel : Nat),
      (∀ msg ∈ msgs, (charset.getBytes msg).length < 2 ^ 31) →
      (chunks.map Chunk.bytes).flatten = (msgs.map (encode charset)).flatten →
      buf.readable = [] → msgs.length < fuel →
      EveryFeedCall (decode charset) Decides fuel chunks buf →
      ∃ buf', feed (decode charset) fuel chunks buf =
          .ok (buf', msgs.map fun msg => charset.newString (charset.getBytes msg)) ∧
        buf'.readable = []) ∧
    (∀ (chunks : List Chunk) (buf : ByteBuf) (fuel : Nat),
      buf.readableBytes + (chunks.map Chunk.bytes).flatten.length < fuel →
      EveryFeedCall (decode charset) Safe fuel chunks buf →
      ∃ result, feed (decode charset) fuel chunks buf = .ok result) := by
  refine ⟨fun buf => decode_eq_ideal_iff, fun buf => decode_ok_iff, ?_, ?_⟩
  · intro msgs chunks buf fuel hmsgs hstream hempty hfuel hcalls
    rw [feed_congr (fun buf hbuf => decode_eq_ideal_iff.mpr hbuf) hcalls]
    exact feed_frames msgs (fun msg hmsg => ideal_reads (hmsgs msg hmsg)) chunks hempty hstream
      hfuel
  · intro chunks buf fuel hfuel hcalls
    exact feed_total (fun buf hbuf => decode_progress hbuf) hcalls hfuel

/-- The conversions of ASCII strings. -/
def asciiCharset : Charset String where
  getBytes := utf8
  newString := asciiString

/-- The empty buffer at the start of a connection. -/
def emptyBuf : ByteBuf := ⟨[], 0, Nat.le_refl 0⟩

/-- Two strings whose lengths agree, in three chunks: the second frame begins behind the first one
in the same buffer, and is cut inside its length and behind it. Both strings are emitted. -/
theorem message_decode_iff_two :
    ∃ buf', feed (decode asciiCharset) 3
        [⟨0, [0, 0, 0, 1, 97, 0, 0]⟩, ⟨0, [0, 1]⟩, ⟨0, [98]⟩] emptyBuf = .ok (buf', ["a", "b"]) ∧
      buf'.readable = [] :=
  (message_decode_iff asciiCharset).2.2.1 ["a", "b"] _ emptyBuf 3 (by decide) (by decide) rfl
    (by decide) (by decide +kernel)

/-- Two strings in one chunk: the second one is never emitted, as the first length asks for seven
bytes where five are readable. After an empty string, the incomplete frame of a second one is
read beyond its end. And a negative length makes a negative array. -/
theorem message_decode_fails :
    feed (decode asciiCharset) 3
        [⟨0, encode asciiCharset "bbb" ++ encode asciiCharset "a"⟩] emptyBuf =
      .ok (⟨[0, 0, 0, 3, 98, 98, 98, 0, 0, 0, 1, 97], 7, by decide⟩, ["bbb"]) ∧
    feed (decode asciiCharset) 9 [⟨0, encode asciiCharset "" ++ [0, 0, 0, 3]⟩, ⟨0, [97, 97, 97]⟩]
        emptyBuf = .error .indexOutOfBounds ∧
    [0, 0, 0, 3] ++ [97, 97, 97] = encode asciiCharset "aaa" ∧
    feed (decode asciiCharset) 5 [⟨0, [255, 255, 255, 255]⟩] emptyBuf =
      .error .negativeArraySize := by
  decide +kernel

end HakunaMatata.UseNetty
