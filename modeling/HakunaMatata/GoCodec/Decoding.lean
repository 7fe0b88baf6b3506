import HakunaMatata.GoCodec.Model

/-!
# What one call of `Decode` does at the front of a stream

The stream that a buffered reader has to deliver starts with an encoded message. `decode_spec`
says that `Decode` returns this message and leaves the rest of the stream, with one exception: if
the message is the last one and the failure of the reader underneath came together with the last
bytes, it can take the message with it (`Lost`). How many bytes came with the failure is kept
track of on the way.
-/

namespace HakunaMatata.GoCodec

open Base Bufio

/-- The header that `Encode` writes. -/
def header (msgId : UInt32) (payload : List UInt8) : MsgHdr :=
  ⟨magicBytes, flagBytes, msgId, UInt32.ofNat payload.length⟩

/-- The payload is within the limit of the codec, if it has one, and its length fits the field of
the header. -/
def Allowed (codec : BytesCodec) (payload : List UInt8) : Prop :=
  payload.length < 2 ^ 32 ∧
    (0 < codec.maxPayloadLimit → payload.length ≤ codec.maxPayloadLimit.toNat)

/-- The checks of `Decode` on the header. -/
structure Accepts (codec : BytesCodec) (hdr : MsgHdr) : Prop where
  magic : hdr.magic = magicBytes
  flags : hdr.flags = flagBytes
  limit : ¬ (0 < codec.maxPayloadLimit ∧ codec.maxPayloadLimit < hdr.payloadLen)

/-- The last message is lost if `count` bytes came together with the end of the stream: its payload
is empty, or these bytes were read into it without the buffer. -/
def Lost (size : Nat) (payload : List UInt8) (count : Nat) : Prop :=
  payload = [] ∨ size ≤ count ∧ count ≤ payload.length

theorem encode_eq (msgId : UInt32) (payload : List UInt8) :
    encode msgId payload = (header msgId payload).write ++ payload := rfl

theorem MsgHdr.length_write (hdr : MsgHdr) (hmagic : hdr.magic.length = 4)
    (hflags : hdr.flags.length = 4) : hdr.write.length = hdrSize := by
  simp [MsgHdr.write, hmagic, hflags, hdrSize]

theorem MsgHdr.read_write (hdr : MsgHdr) (hmagic : hdr.magic.length = 4)
    (hflags : hdr.flags.length = 4) : MsgHdr.read hdr.write = hdr := by
  have hword : ∀ n : UInt32,
      UInt32.ofNat (loadWord .little ((storeWord .little 4 n.toNat).take 4)) = n := by
    intro n
    rw [List.take_of_length_le (Nat.le_of_eq (length_storeWord .little 4 _)),
      loadWord_storeWord .little n.toNat_lt, UInt32.ofNat_toNat]
  have hwhole : ∀ n : UInt32,
      UInt32.ofNat (loadWord .little (storeWord .little 4 n.toNat)) = n := by
    intro n
    rw [loadWord_storeWord .little n.toNat_lt, UInt32.ofNat_toNat]
  simp [MsgHdr.read, MsgHdr.write, List.drop_append, List.drop_of_length_le, hmagic, hflags,
    hword, hwhole]

theorem toNat_payloadLen {codec : BytesCodec} {payload : List UInt8} (h : Allowed codec payload)
    (msgId : UInt32) : (header msgId payload).payloadLen.toNat = payload.length :=
  UInt32.toNat_ofNat_of_lt' h.1

variable {σ : Type*} {r : IoReader σ} {size : Nat} {b : Reader σ}

/-- Bytes from the front of two parts that are no more than the first one are taken from it. -/
theorem split_of_length_le {todo rest bytes rest' : List UInt8} (h : todo ++ rest = bytes ++ rest')
    (hle : bytes.length ≤ todo.length) :
    ∃ todo', todo = bytes ++ todo' ∧ rest' = todo' ++ rest := by
  obtain ⟨todo', rfl⟩ : bytes <+: todo :=
    List.prefix_of_prefix_length_le ⟨rest', h.symm⟩ (List.prefix_append todo rest) hle
  rw [List.append_assoc, List.append_cancel_left_eq] at h
  exact ⟨todo', rfl, h.symm⟩

/-- A read takes a byte of the payload or makes the reader underneath less idle, so that the fuel
that is left is enough for the rest. -/
theorem fuel_of_part {bytes todo : List UInt8} {idle idle' fuel : Nat}
    (hidle : bytes = [] → idle' < idle) (hbound : idle' < maxEmptyReads)
    (hfuel : (bytes.length + todo.length) * maxEmptyReads + idle < fuel + 1) :
    todo.length * maxEmptyReads + idle' < fuel := by
  by_cases hnil : bytes = []
  · have hless := hidle hnil
    rw [hnil, List.length_nil, Nat.zero_add] at hfuel
    omega
  · have hmul : maxEmptyReads ≤ bytes.length * maxEmptyReads :=
      Nat.le_mul_of_pos_left _ (List.length_pos_of_ne_nil hnil)
    rw [Nat.add_mul] at hfuel
    omega

/-- A read that ends the payload together with the failure: the message is lost if this is the end
of the file. -/
theorem readPayload_unbuffered (hdr : MsgHdr) {done todo : List UInt8} {b' : Reader σ}
    (hlength : done.length + todo.length = hdr.payloadLen.toNat)
    (hread : read r size todo.length b = ⟨todo, some r.failure, b'⟩) (fuel : Nat) :
    ∃ d, readPayload r size hdr (fuel + 1) done b = .ok d ∧
      (r.failure = .eof → d = .failed .eof b') := by
  have hroom : hdr.payloadLen.toNat - done.length = todo.length := by omega
  rw [readPayload, hroom, hread]
  by_cases heof : r.failure = .eof
  · exact ⟨.failed .eof b', by simp [heof], fun _ => rfl⟩
  · exact ⟨.message hdr (done ++ todo) b', by simp [heof, hlength], fun h => absurd h heof⟩

/-- The payload loop reads the part of the payload that is still to come. If the failure came with
the bytes of a buffered read, these were the rest of the stream. If it came with the bytes of an
unbuffered one, they ended the payload and the stream. -/
theorem readPayload_spec (hdr : MsgHdr) {done todo rest : List UInt8}
    (hlength : done.length + todo.length = hdr.payloadLen.toNat) (htodo : todo ≠ [])
    (h : Serves r size b (todo ++ rest)) {fuel : Nat}
    (hfuel : todo.length * maxEmptyReads + r.idle b.rd < fuel) :
    (∃ b', readPayload r size hdr fuel done b = .ok (.message hdr (done ++ todo) b') ∧
      Serves r size b' rest ∧
      (r.closing b'.rd = r.closing b.rd ∨ ∃ count, r.closing b'.rd = some count ∧
        rest.length < count ∧ (rest = [] → count < size))) ∨
    (∃ d b' count, readPayload r size hdr fuel done b = .ok d ∧
      (r.failure = .eof → d = .failed .eof b') ∧ rest = [] ∧ r.closing b'.rd = some count ∧
      size ≤ count ∧ count ≤ todo.length) := by
  induction fuel generalizing done todo b with
  | zero => omega
  | succ fuel ih =>
    have hroom : hdr.payloadLen.toNat - done.length = todo.length := by omega
    have hpos := List.length_pos_of_ne_nil htodo
    rcases read_spec h hpos (by simp) with
      ⟨bytes, rest', b', hread, hle, hsplit, hserves, hidle, hclosing⟩ |
      ⟨b', hread, hall, hlarge, hclosing⟩
    · -- a part of the payload
      have hclosed : r.closing b'.rd = r.closing b.rd ∨ ∃ count, r.closing b'.rd = some count ∧
          rest.length < count ∧ (rest = [] → count < size) := by
        rcases hclosing with hsame | ⟨hall, hsmall⟩
        · exact Or.inl hsame
        · refine Or.inr ⟨_, hall, by rw [List.length_append]; omega, fun hnil => ?_⟩
          rwa [hnil, List.append_nil]
      obtain ⟨todo', rfl, rfl⟩ := split_of_length_le hsplit hle
      rw [readPayload, hroom, hread]
      rw [List.length_append] at hlength hfuel
      simp only [reduceCtorEq, if_false, List.length_append]
      by_cases htodo' : todo' = []
      · left
        subst htodo'
        refine ⟨b', ?_, hserves, hclosed⟩
        rw [if_pos (by simpa using hlength), List.append_nil]
      · have hpos' := List.length_pos_of_ne_nil htodo'
        have hdone : (done ++ bytes).length + todo'.length = hdr.payloadLen.toNat := by
          rw [List.length_append]
          omega
        rw [if_neg (by omega), if_neg (by omega)]
        rcases ih hdone htodo' hserves (fuel_of_part hidle (r.idle_lt b'.rd) hfuel) with
          ⟨last, hloop, hlast, hclosing'⟩ |
          ⟨d, last, count, hloop, hfailed, hnil, hclosing', hsize, hcount⟩
        · left
          refine ⟨last, by rw [hloop, List.append_assoc], hlast, ?_⟩
          rcases hclosing' with hkept | hlater
          · rwa [hkept]
          · exact Or.inr hlater
        · exact Or.inr ⟨d, last, count, hloop, hfailed, hnil, hclosing', hsize, by omega⟩
    · -- the rest of the payload and of the stream, together with the failure
      obtain rfl : rest = [] := by
        rw [List.length_append] at hall
        exact List.eq_nil_of_length_eq_zero (by omega)
      rw [List.append_nil] at hread
      obtain ⟨d, hloop, hfailed⟩ := readPayload_unbuffered hdr hlength hread fuel
      exact Or.inr ⟨d, b', todo.length, hloop, hfailed, rfl, hclosing, hlarge, Nat.le_refl _⟩

/-- An empty payload is read with an empty slice, which reports the stored failure exactly if the
stream is at its end. -/
theorem readPayload_empty (msgId : UInt32) {rest : List UInt8} (h : Serves r size b rest)
    {fuel : Nat} (hfuel : 0 < fuel) :
    (readPayload r size (header msgId []) fuel [] b = .ok (.message (header msgId []) [] b) ∧
      (rest = [] → r.closing b.rd = none)) ∨
    (∃ d b' count, readPayload r size (header msgId []) fuel [] b = .ok d ∧
      (r.failure = .eof → d = .failed .eof b') ∧ rest = [] ∧ r.closing b'.rd = some count) := by
  obtain ⟨fuel, rfl⟩ : ∃ n, fuel = n + 1 := ⟨fuel - 1, by omega⟩
  rcases read_zero h with ⟨hread, hnone⟩ | ⟨b', hread, hnil, hrd, hsome⟩
  · left
    have hlen : (header msgId []).payloadLen.toNat = 0 := rfl
    exact ⟨by simp [readPayload, hlen, hread], hnone⟩
  · right
    obtain ⟨count, hcount⟩ := Option.isSome_iff_exists.mp hsome
    obtain ⟨d, hloop, hfailed⟩ := readPayload_unbuffered (header msgId [])
      (show ([] : List UInt8).length + [].length = _ from rfl) hread fuel
    exact ⟨d, b', count, hloop, hfailed, hnil, by rw [hrd, hcount]⟩

theorem decode_of_accepts {codec : BytesCodec} {bytes : List UInt8} {next : Reader σ}
    (hpeek : peek r size hdrSize b = ⟨bytes, none, next⟩)
    (haccepts : Accepts codec (MsgHdr.read bytes)) (fuel : Nat) :
    decode r size codec fuel b =
      readPayload r size (MsgHdr.read bytes) fuel [] (discard hdrSize next) := by
  unfold decode
  simp only [hpeek]
  rw [if_neg (not_not.2 haccepts.magic), if_neg (not_not.2 haccepts.flags),
    if_neg haccepts.limit]

theorem decode_of_not_accepts {codec : BytesCodec} {bytes : List UInt8} {next : Reader σ}
    (hpeek : peek r size hdrSize b = ⟨bytes, none, next⟩)
    (haccepts : ¬ Accepts codec (MsgHdr.read bytes)) (fuel : Nat) :
    ∃ err, decode r size codec fuel b = .ok (.failed err next) := by
  unfold decode
  simp only [hpeek]
  split_ifs with hmagic hflags hlimit
  · exact ⟨_, rfl⟩
  · exact ⟨_, rfl⟩
  · exact ⟨_, rfl⟩
  · exact absurd ⟨not_not.1 hmagic, not_not.1 hflags, hlimit⟩ haccepts

/-- `Decode` accepts the header at the front of the stream and goes on behind it. If the failure
came meanwhile with the last bytes, these reach beyond the payload and the rest. -/
theorem decode_header (codec : BytesCodec) {msgId : UInt32} {payload rest : List UInt8}
    (hallowed : Allowed codec payload) (hsize : hdrSize ≤ size)
    (h : Serves r size b (encode msgId payload ++ rest)) (fuel : Nat) :
    ∃ behind, decode r size codec fuel b =
        readPayload r size (header msgId payload) fuel [] behind ∧
      Serves r size behind (payload ++ rest) ∧
      (r.closing behind.rd = r.closing b.rd ∨ ∃ count, r.closing behind.rd = some count ∧
        payload.length + rest.length < count) := by
  have hwrite := (header msgId payload).length_write rfl rfl
  have hfront : (encode msgId payload ++ rest).take hdrSize = (header msgId payload).write := by
    rw [encode_eq, List.append_assoc, ← hwrite, List.take_left]
  have hbehind : (encode msgId payload ++ rest).drop hdrSize = payload ++ rest := by
    rw [encode_eq, List.append_assoc, ← hwrite, List.drop_left]
  have htotal : (encode msgId payload ++ rest).length =
      hdrSize + (payload.length + rest.length) := by
    rw [encode_eq, List.length_append, List.length_append, hwrite, Nat.add_assoc]
  obtain ⟨peeked, hpeek, hpeeked, hbuffered, hclosing⟩ := peek_spec h hsize (by omega)
  have hlimit : ¬ (0 < codec.maxPayloadLimit ∧
      codec.maxPayloadLimit < (header msgId payload).payloadLen) := by
    intro ⟨hpos, hlt⟩
    have hle := hallowed.2 hpos
    rw [UInt32.lt_iff_toNat_lt, toNat_payloadLen hallowed] at hlt
    omega
  have hread : MsgHdr.read ((encode msgId payload ++ rest).take hdrSize) =
      header msgId payload := by
    rw [hfront, (header msgId payload).read_write rfl rfl]
  have haccepts : Accepts codec (MsgHdr.read ((encode msgId payload ++ rest).take hdrSize)) := by
    rw [hread]
    exact ⟨rfl, rfl, hlimit⟩
  refine ⟨discard hdrSize peeked, ?_, ?_, ?_⟩
  · rw [decode_of_accepts hpeek haccepts, hread]
  · have hdiscard := hpeeked.discard hdrSize
    rwa [← List.drop_append_of_le_length hbuffered, hpeeked.content, hbehind] at hdiscard
  · rcases hclosing with hsame | ⟨count, hcount, hlt⟩
    · exact Or.inl hsame
    · exact Or.inr ⟨count, hcount, by omega⟩

/-- `Decode` returns the message at the front of the stream and leaves the rest. If the failure
came meanwhile with the last bytes, these reach beyond the rest, and the message was not lost. In
the other case the message is the last one, and it is lost. -/
theorem decode_spec (codec : BytesCodec) {msgId : UInt32} {payload rest : List UInt8}
    (hallowed : Allowed codec payload) (hsize : hdrSize ≤ size)
    (h : Serves r size b (encode msgId payload ++ rest)) {fuel : Nat}
    (hfuel : (payload.length + 1) * maxEmptyReads ≤ fuel) :
    (∃ b', decode r size codec fuel b = .ok (.message (header msgId payload) payload b') ∧
      Serves r size b' rest ∧
      (r.closing b'.rd = r.closing b.rd ∨ ∃ count, r.closing b'.rd = some count ∧
        rest.length < count ∧ (rest = [] → count < size ∨ payload.length < count)) ∧
      (rest = [] → payload = [] → r.closing b'.rd = none)) ∨
    (∃ d b' count, decode r size codec fuel b = .ok d ∧
      (r.failure = .eof → d = .failed .eof b') ∧ rest = [] ∧ r.closing b'.rd = some count ∧
      Lost size payload count) := by
  obtain ⟨behind, hdecode, hserves, hclosing⟩ := decode_header codec hallowed hsize h fuel
  -- what the header leaves of the failure, for the messages that are not lost
  have hclosed : r.closing behind.rd = r.closing b.rd ∨
      ∃ count, r.closing behind.rd = some count ∧ rest.length < count ∧
        (rest = [] → count < size ∨ payload.length < count) := by
    rcases hclosing with hsame | ⟨count, hcount, hlt⟩
    · exact Or.inl hsame
    · exact Or.inr ⟨count, hcount, by omega, fun _ => Or.inr (by omega)⟩
  have hidle := r.idle_lt behind.rd
  rw [Nat.add_mul, Nat.one_mul] at hfuel
  rw [hdecode]
  by_cases hempty : payload = []
  · subst hempty
    rcases readPayload_empty msgId hserves (by omega : 0 < fuel) with
      ⟨hloop, hnone⟩ | ⟨d, last, count, hloop, hfailed, hnil, hcount⟩
    · exact Or.inl ⟨behind, hloop, hserves, hclosed, fun hnil _ => hnone hnil⟩
    · exact Or.inr ⟨d, last, count, hloop, hfailed, hnil, hcount, Or.inl rfl⟩
  · have hlength : ([] : List UInt8).length + payload.length =
        (header msgId payload).payloadLen.toNat := by
      rw [toNat_payloadLen hallowed, List.length_nil, Nat.zero_add]
    have henough : payload.length * maxEmptyReads + r.idle behind.rd < fuel := by omega
    rcases readPayload_spec (header msgId payload) hlength hempty hserves henough with
      ⟨last, hloop, hlast, hkept⟩ |
      ⟨d, last, count, hloop, hfailed, hnil, hcount, hlarge, hle⟩
    · refine Or.inl ⟨last, hloop, hlast, ?_, fun _ h => absurd h hempty⟩
      rcases hkept with hkept | ⟨count, hcount, hlt, hsmall⟩
      · rwa [hkept]
      · exact Or.inr ⟨count, hcount, hlt, fun hnil => Or.inl (hsmall hnil)⟩
    · exact Or.inr ⟨d, last, count, hloop, hfailed, hnil, hcount, Or.inr ⟨hlarge, hle⟩⟩

theorem decode_end (codec : BytesCodec) (hsize : hdrSize ≤ size) (h : Serves r size b [])
    (fuel : Nat) : ∃ b', decode r size codec fuel b = .ok (.failed r.failure b') ∧
      r.closing b'.rd = r.closing b.rd := by
  obtain ⟨b', hpeek, hclosing⟩ := peek_end h hsize (Nat.succ_pos 15)
  exact ⟨b', by simp only [decode, hpeek], hclosing⟩

end HakunaMatata.GoCodec
