import HakunaMatata.Base.Framing
import HakunaMatata.Base.JavaBytes

/-!
# Netty's byte buffers and the loop of a decoder

A `ByteBuf` keeps the bytes that were read in front of its reader index until they are discarded.
`feed` is what `ByteToMessageDecoder` does with the chunks that arrive: each one is appended to the
buffer, after some of the bytes that were read may have been discarded, and `decode` is called
while it makes progress. Read `Reads` and `feed_frames` first: a decoder that takes whole frames and
leaves an incomplete one alone emits the messages of a stream, wherever the stream is cut.
`feed_congr` compares two decoders on the buffers of a run.
-/

namespace HakunaMatata.Base.Netty

open Java

/-- A byte buffer: the bytes up to the writer index, and the reader index. -/
structure ByteBuf where
  data : List UInt8
  readerIndex : Nat
  index_le : readerIndex ≤ data.length
  deriving DecidableEq

namespace ByteBuf

variable (buf : ByteBuf)

/-- The bytes that were not read yet. -/
def readable : List UInt8 :=
  buf.data.drop buf.readerIndex

/-- `readableBytes`. -/
def readableBytes : Nat :=
  buf.data.length - buf.readerIndex

/-- `getInt`, at an absolute index. -/
def getInt (index : Nat) : Except Thrown Int :=
  if index + 4 ≤ buf.data.length then .ok (intOf ((buf.data.drop index).take 4))
  else .error .indexOutOfBounds

/-- `readBytes` into an array with this many bytes. -/
def readBytes (count : Nat) : Except Thrown (List UInt8 × ByteBuf) :=
  if h : buf.readerIndex + count ≤ buf.data.length then
    .ok (buf.readable.take count, ⟨buf.data, buf.readerIndex + count, h⟩)
  else .error .indexOutOfBounds

/-- `readInt`. -/
def readInt : Except Thrown (Int × ByteBuf) := do
  let word ← buf.readBytes 4
  pure (intOf word.1, word.2)

/-- The buffer after this many bytes were read. -/
def skip (count : Nat) : ByteBuf where
  data := buf.data
  readerIndex := min (buf.readerIndex + count) buf.data.length
  index_le := Nat.min_le_right _ _

/-- Drop some of the bytes that were read. -/
def discard (count : Nat) : ByteBuf where
  data := buf.data.drop (min count buf.readerIndex)
  readerIndex := buf.readerIndex - min count buf.readerIndex
  index_le := by
    rw [List.length_drop]
    exact Nat.sub_le_sub_right buf.index_le _

/-- Write a chunk behind the data. -/
def append (chunk : List UInt8) : ByteBuf where
  data := buf.data ++ chunk
  readerIndex := buf.readerIndex
  index_le := by
    rw [List.length_append]
    exact Nat.le_add_right_of_le buf.index_le

variable {buf}

theorem length_readable : buf.readable.length = buf.readableBytes :=
  List.length_drop

@[simp] theorem readable_discard (count : Nat) : (buf.discard count).readable = buf.readable := by
  simp only [readable, discard, List.drop_drop]
  congr 1
  omega

@[simp] theorem readable_append (chunk : List UInt8) :
    (buf.append chunk).readable = buf.readable ++ chunk :=
  List.drop_append_of_le_length buf.index_le

@[simp] theorem readable_skip (count : Nat) :
    (buf.skip count).readable = buf.readable.drop count := by
  simp only [readable, skip, List.drop_drop]
  rcases Nat.le_total (buf.readerIndex + count) buf.data.length with hle | hge
  · rw [Nat.min_eq_left hle]
  · rw [Nat.min_eq_right hge, List.drop_length, List.drop_of_length_le hge]

@[simp] theorem readableBytes_skip (count : Nat) :
    (buf.skip count).readableBytes = buf.readableBytes - count := by
  rw [← length_readable, readable_skip, List.length_drop, length_readable]

theorem skip_skip (first second : Nat) :
    (buf.skip first).skip second = buf.skip (first + second) := by
  simp only [skip, mk.injEq, true_and]
  omega

theorem readBytes_eq (count : Nat) :
    buf.readBytes count = if count ≤ buf.readableBytes then
      .ok (buf.readable.take count, buf.skip count) else .error .indexOutOfBounds := by
  have hindex := buf.index_le
  have hcount : buf.readableBytes = buf.data.length - buf.readerIndex := rfl
  unfold readBytes
  by_cases hle : buf.readerIndex + count ≤ buf.data.length
  · rw [dif_pos hle, if_pos (by omega)]
    simp only [skip, Nat.min_eq_left hle]
  · rw [dif_neg hle, if_neg (by omega)]

theorem readBytes_append {bytes rest : List UInt8} (h : buf.readable = bytes ++ rest) :
    ∃ buf', buf.readBytes bytes.length = .ok (bytes, buf') ∧ buf'.readable = rest := by
  have hlen := congrArg List.length h
  rw [length_readable, List.length_append] at hlen
  refine ⟨buf.skip bytes.length, ?_, ?_⟩
  · rw [readBytes_eq, if_pos (by omega), h, List.take_left]
  · rw [readable_skip, h, List.drop_left]

theorem readInt_append {n : Nat} (hn : n < 2 ^ 31) {rest : List UInt8}
    (h : buf.readable = intBytes n ++ rest) :
    ∃ buf', buf.readInt = .ok ((n : Int), buf') ∧ buf'.readable = rest := by
  obtain ⟨buf', hread, hrest⟩ := readBytes_append h
  rw [length_intBytes] at hread
  refine ⟨buf', ?_, hrest⟩
  rw [readInt, hread, ok_bind, intOf_intBytes hn]
  rfl

/-- A length at the reader index is found without reading it. -/
theorem getInt_readerIndex {n : Nat} (hn : n < 2 ^ 31) {rest : List UInt8}
    (h : buf.readable = intBytes n ++ rest) : buf.getInt buf.readerIndex = .ok (n : Int) := by
  have hlen := congrArg List.length h
  rw [length_readable, readableBytes, List.length_append, length_intBytes] at hlen
  rw [getInt, if_pos (by omega), ← readable, h, List.take_left' (length_intBytes _),
    intOf_intBytes hn]

end ByteBuf

/-- `new byte[length]`. -/
def newBytes (length : Int) : Except Thrown Nat :=
  if length < 0 then .error .negativeArraySize else .ok length.toNat

/-- A chunk of the stream, and how many bytes that were read are discarded before it is
appended. -/
structure Chunk where
  discarded : Nat
  bytes : List UInt8

section Loop

variable {M : Type} (decode : ByteBuf → Except Thrown (ByteBuf × List M))

/-- `callDecode`: the buffer afterwards, and the messages that were emitted. The fuel bounds the
calls; the library has no bound. -/
def callDecode : Nat → ByteBuf → Except Thrown (ByteBuf × List M)
  | 0, _ => .error .diverged
  | fuel + 1, buf =>
    if buf.readableBytes = 0 then .ok (buf, [])
    else do
      let call ← decode buf
      if call.1.readableBytes = buf.readableBytes then
        if call.2.isEmpty then pure call
        else .error (.decoderException ".decode() did not read anything but decoded a message.")
      else do
        let rest ← callDecode fuel call.1
        pure (rest.1, call.2 ++ rest.2)

/-- The chunks arrive one after the other. -/
def feed (fuel : Nat) : List Chunk → ByteBuf → Except Thrown (ByteBuf × List M)
  | [], buf => .ok (buf, [])
  | chunk :: chunks, buf => do
    let call ← callDecode decode fuel ((buf.discard chunk.discarded).append chunk.bytes)
    let rest ← feed fuel chunks call.1
    pure (rest.1, call.2 ++ rest.2)

/-- Every buffer on which `decode` is called from here on has the property. -/
def EveryCall (property : ByteBuf → Prop) : Nat → ByteBuf → Prop
  | 0, _ => True
  | fuel + 1, buf => buf.readableBytes ≠ 0 →
      property buf ∧ ∀ call, decode buf = .ok call →
        call.1.readableBytes ≠ buf.readableBytes → EveryCall property fuel call.1

/-- Every buffer on which `decode` is called while the chunks arrive has the property. -/
def EveryFeedCall (property : ByteBuf → Prop) (fuel : Nat) : List Chunk → ByteBuf → Prop
  | [], _ => True
  | chunk :: chunks, buf =>
    EveryCall decode property fuel ((buf.discard chunk.discarded).append chunk.bytes) ∧
      ∀ call, callDecode decode fuel ((buf.discard chunk.discarded).append chunk.bytes) =
        .ok call → EveryFeedCall property fuel chunks call.1

instance decidableEveryCall (property : ByteBuf → Prop) [DecidablePred property] :
    ∀ fuel buf, Decidable (EveryCall decode property fuel buf)
  | 0, _ => .isTrue trivial
  | fuel + 1, _ =>
    have := decidableEveryCall property fuel
    inferInstanceAs (Decidable (_ → _ ∧ ∀ _, _ → _ → _))

instance decidableEveryFeedCall (property : ByteBuf → Prop) [DecidablePred property] (fuel : Nat) :
    ∀ chunks buf, Decidable (EveryFeedCall decode property fuel chunks buf)
  | [], _ => .isTrue trivial
  | _ :: chunks, _ =>
    have := decidableEveryFeedCall property fuel chunks
    inferInstanceAs (Decidable (_ ∧ ∀ _, _ → _))

variable {decode}

/-- A decoder that agrees with another one on every buffer of its calls runs like it. -/
theorem callDecode_congr {other : ByteBuf → Except Thrown (ByteBuf × List M)}
    {property : ByteBuf → Prop} (hagree : ∀ buf, property buf → decode buf = other buf)
    {fuel : Nat} {buf : ByteBuf} (h : EveryCall decode property fuel buf) :
    callDecode decode fuel buf = callDecode other fuel buf := by
  induction fuel generalizing buf with
  | zero => rfl
  | succ fuel ih =>
    by_cases hnone : buf.readableBytes = 0
    · rw [callDecode, callDecode, if_pos hnone, if_pos hnone]
    · obtain ⟨hbuf, hnext⟩ := h hnone
      rw [callDecode, callDecode, if_neg hnone, if_neg hnone, ← hagree buf hbuf]
      cases hcall : decode buf with
      | error e => rfl
      | ok call =>
        rw [ok_bind, ok_bind]
        by_cases hsame : call.1.readableBytes = buf.readableBytes
        · rw [if_pos hsame, if_pos hsame]
        · rw [if_neg hsame, if_neg hsame, ih (hnext call hcall hsame)]

/-- A decoder that agrees with another one on every buffer of its calls emits the same. -/
theorem feed_congr {other : ByteBuf → Except Thrown (ByteBuf × List M)}
    {property : ByteBuf → Prop} (hagree : ∀ buf, property buf → decode buf = other buf)
    {fuel : Nat} {chunks : List Chunk} {buf : ByteBuf}
    (h : EveryFeedCall decode property fuel chunks buf) :
    feed decode fuel chunks buf = feed other fuel chunks buf := by
  induction chunks generalizing buf with
  | nil => rfl
  | cons chunk chunks ih =>
    obtain ⟨hfirst, hrest⟩ := h
    rw [feed, feed, ← callDecode_congr hagree hfirst]
    cases hcall : callDecode decode fuel ((buf.discard chunk.discarded).append chunk.bytes) with
    | error e => rfl
    | ok call => rw [ok_bind, ok_bind, ih (hrest call hcall)]

/-- A decoder whose calls succeed, and read something unless they leave the buffer alone, runs to an
end. -/
theorem callDecode_total {property : ByteBuf → Prop}
    (hstep : ∀ buf, property buf → ∃ call, decode buf = .ok call ∧
      (call = (buf, []) ∨ call.1.readableBytes < buf.readableBytes))
    {fuel : Nat} {buf : ByteBuf} (h : EveryCall decode property fuel buf)
    (hfuel : buf.readableBytes < fuel) :
    ∃ call, callDecode decode fuel buf = .ok call ∧
      call.1.readableBytes ≤ buf.readableBytes := by
  induction fuel generalizing buf with
  | zero => omega
  | succ fuel ih =>
    by_cases hnone : buf.readableBytes = 0
    · exact ⟨(buf, []), by rw [callDecode, if_pos hnone], Nat.le_refl _⟩
    · obtain ⟨hbuf, hnext⟩ := h hnone
      obtain ⟨call, hcall, hprogress⟩ := hstep buf hbuf
      rw [callDecode, if_neg hnone, hcall, ok_bind]
      rcases hprogress with rfl | hlt
      · exact ⟨(buf, []), by rw [if_pos rfl]; rfl, Nat.le_refl _⟩
      · have hne : call.1.readableBytes ≠ buf.readableBytes := by omega
        obtain ⟨rest, hrest, hle⟩ := ih (hnext call hcall hne) (by omega)
        refine ⟨(rest.1, call.2 ++ rest.2), ?_, by simp only; omega⟩
        rw [if_neg hne, hrest, ok_bind]
        rfl

/-- A decoder whose calls succeed, and read something unless they leave the buffer alone, throws
nothing while the chunks arrive. -/
theorem feed_total {property : ByteBuf → Prop}
    (hstep : ∀ buf, property buf → ∃ call, decode buf = .ok call ∧
      (call = (buf, []) ∨ call.1.readableBytes < buf.readableBytes))
    {fuel : Nat} {chunks : List Chunk} {buf : ByteBuf}
    (h : EveryFeedCall decode property fuel chunks buf)
    (hfuel : buf.readableBytes + (chunks.map Chunk.bytes).flatten.length < fuel) :
    ∃ result, feed decode fuel chunks buf = .ok result := by
  induction chunks generalizing buf with
  | nil => exact ⟨(buf, []), rfl⟩
  | cons chunk chunks ih =>
    obtain ⟨hfirst, hrest⟩ := h
    have hcount : ((buf.discard chunk.discarded).append chunk.bytes).readableBytes =
        buf.readableBytes + chunk.bytes.length := by
      rw [← ByteBuf.length_readable, ByteBuf.readable_append, ByteBuf.readable_discard,
        List.length_append, ByteBuf.length_readable]
    rw [List.map_cons, List.flatten_cons, List.length_append] at hfuel
    obtain ⟨call, hcall, hle⟩ := callDecode_total hstep hfirst (by omega)
    obtain ⟨result, hresult⟩ := ih (hrest call hcall) (by omega)
    refine ⟨(result.1, call.2 ++ result.2), ?_⟩
    rw [feed, hcall, ok_bind, hresult, ok_bind]
    rfl

/-! ## Frames -/

section Frames

variable {ι : Type*} {encode : ι → List UInt8} {value : ι → M}

/-- The decoder takes the frame of an item at once and emits its value, and it leaves an incomplete
frame alone. -/
structure Reads (decode : ByteBuf → Except Thrown (ByteBuf × List M)) (encode : ι → List UInt8)
    (value : ι → M) (item : ι) : Prop where
  nonempty : 0 < (encode item).length
  whole : ∀ buf rest, buf.readable = encode item ++ rest →
    ∃ buf', decode buf = .ok (buf', [value item]) ∧ buf'.readable = rest
  part : ∀ buf, buf.readable <+: encode item → buf.readable.length < (encode item).length →
    decode buf = .ok (buf, [])

/-- The frames that are complete are taken one after the other; nothing is left of a stream that has
arrived completely. -/
theorem callDecode_frames (items : List ι) (hreads : ∀ item ∈ items, Reads decode encode value item)
    {buf : ByteBuf} {later : List UInt8}
    (hstream : buf.readable ++ later = (items.map encode).flatten) {fuel : Nat}
    (hfuel : items.length < fuel) :
    ∃ done next buf', items = done ++ next ∧
      callDecode decode fuel buf = .ok (buf', done.map value) ∧
      buf'.readable ++ later = (next.map encode).flatten ∧ (later = [] → next = []) := by
  obtain ⟨fuel, rfl⟩ : ∃ n, fuel = n + 1 := ⟨fuel - 1, by omega⟩
  have hcount := buf.length_readable
  induction items generalizing buf fuel with
  | nil =>
    have hempty : buf.readable = [] := (List.append_eq_nil_iff.mp hstream).1
    rw [hempty, List.length_nil] at hcount
    refine ⟨[], [], buf, rfl, ?_, hstream, fun _ => rfl⟩
    rw [callDecode, if_pos hcount.symm]
    rfl
  | cons item items ih =>
    have hitem := hreads item List.mem_cons_self
    have hprefix : buf.readable <+: encode item ++ (items.map encode).flatten := ⟨later, hstream⟩
    rcases Nat.lt_or_ge buf.readable.length (encode item).length with hlt | hge
    · have hpart := List.prefix_of_prefix_length_le hprefix (List.prefix_append _ _)
        (Nat.le_of_lt hlt)
      refine ⟨[], item :: items, buf, rfl, ?_, hstream, ?_⟩
      · rw [callDecode]
        split
        · rfl
        · rw [hitem.part buf hpart hlt, ok_bind, if_pos rfl]
          rfl
      · rintro rfl
        have hlen := congrArg List.length hstream
        rw [List.append_nil, List.map_cons, List.flatten_cons, List.length_append] at hlen
        omega
    · obtain ⟨rest, hrest⟩ := List.prefix_of_prefix_length_le (List.prefix_append _ _) hprefix hge
      obtain ⟨next, hdecode, hnext⟩ := hitem.whole buf rest hrest.symm
      rw [List.length_cons] at hfuel
      obtain ⟨fuel, rfl⟩ : ∃ n, fuel = n + 1 := ⟨fuel - 1, by omega⟩
      have hstream' : next.readable ++ later = (items.map encode).flatten := by
        rw [← hrest, List.map_cons, List.flatten_cons, List.append_assoc,
          List.append_cancel_left_eq] at hstream
        rw [hnext, hstream]
      obtain ⟨done, following, buf', rfl, hcall, hend⟩ := ih
        (fun i hi => hreads i (List.mem_cons_of_mem _ hi)) hstream' fuel (by omega)
        next.length_readable
      refine ⟨item :: done, following, buf', rfl, ?_, hend⟩
      have hnonempty := hitem.nonempty
      have hprogress : next.readableBytes ≠ buf.readableBytes := by
        rw [← hcount, ← next.length_readable, hnext, ← hrest, List.length_append]
        omega
      rw [callDecode, if_neg (by omega), hdecode, ok_bind, if_neg hprogress, hcall, ok_bind]
      rfl

/-- From a buffer that holds the beginning of the stream on, the values of the items are emitted.
The induction is on the chunks, with the items whose frames have not been taken yet. -/
theorem feed_frames_from (chunks : List Chunk) (items : List ι)
    (hreads : ∀ item ∈ items, Reads decode encode value item) {buf : ByteBuf}
    (hstream : buf.readable ++ (chunks.map Chunk.bytes).flatten = (items.map encode).flatten)
    (hend : chunks = [] → items = []) {fuel : Nat} (hfuel : items.length < fuel) :
    ∃ buf', feed decode fuel chunks buf = .ok (buf', items.map value) ∧ buf'.readable = [] := by
  induction chunks generalizing items buf with
  | nil =>
    obtain rfl := hend rfl
    exact ⟨buf, rfl, (List.append_eq_nil_iff.mp hstream).1⟩
  | cons chunk chunks ih =>
    have hchunk : ((buf.discard chunk.discarded).append chunk.bytes).readable ++
        (chunks.map Chunk.bytes).flatten = (items.map encode).flatten := by
      rw [ByteBuf.readable_append, ByteBuf.readable_discard, List.append_assoc, ← hstream,
        List.map_cons, List.flatten_cons]
    obtain ⟨done, next, middle, rfl, hcall, hmiddle, hnone⟩ :=
      callDecode_frames items hreads hchunk hfuel
    rw [List.length_append] at hfuel
    obtain ⟨buf', hrest, hread⟩ := ih next (fun i hi => hreads i (by simp [hi])) hmiddle
      (fun h => hnone (by rw [h]; rfl)) (by omega)
    refine ⟨buf', ?_, hread⟩
    rw [feed, hcall, ok_bind, hrest, ok_bind, List.map_append]
    rfl

/-- The values of the items are emitted, each once and in order, wherever the stream of their frames
is cut, and no byte is left unread. -/
theorem feed_frames (items : List ι) (hreads : ∀ item ∈ items, Reads decode encode value item)
    (chunks : List Chunk) {buf : ByteBuf} (hempty : buf.readable = [])
    (hstream : (chunks.map Chunk.bytes).flatten = (items.map encode).flatten) {fuel : Nat}
    (hfuel : items.length < fuel) :
    ∃ buf', feed decode fuel chunks buf = .ok (buf', items.map value) ∧ buf'.readable = [] := by
  refine feed_frames_from chunks items hreads (by rw [hempty, List.nil_append, hstream]) ?_ hfuel
  rintro rfl
  cases items with
  | nil => rfl
  | cons item items =>
    have hlen := congrArg List.length hstream
    have hnonempty := (hreads item List.mem_cons_self).nonempty
    rw [List.map_cons, List.flatten_cons, List.length_append] at hlen
    simp only [List.map_nil, List.flatten_nil, List.length_nil] at hlen
    omega

end Frames

end Loop

end HakunaMatata.Base.Netty
