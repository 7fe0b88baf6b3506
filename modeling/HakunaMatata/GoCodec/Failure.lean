import HakunaMatata.GoCodec.Decoding

/-!
# `Decode` on a connection that breaks

The reader underneath delivers a part of a stream and then fails. A caller decodes until it gets
an error. The header is peeked at, and an error there is returned; but the loop that reads the
payload only stops at `io.EOF`. `stops_iff` says when the caller comes to an end: the failure is
`io.EOF`, or it does not hit a payload.
-/

namespace HakunaMatata.GoCodec

open Base Bufio

/-- The header at the front of a stream. -/
def frontHdr (stream : List UInt8) : MsgHdr :=
  MsgHdr.read (stream.take hdrSize)

/-- The length of the message at the front of a stream. -/
def messageLen (stream : List UInt8) : Nat :=
  hdrSize + (frontHdr stream).payloadLen.toNat

/-- The stream ends inside of a payload: behind a number of whole messages there is a header that
is accepted, and fewer bytes than it announces. -/
inductive EndsInPayload (codec : BytesCodec) : List UInt8 → Prop where
  | here {stream : List UInt8} : hdrSize ≤ stream.length → Accepts codec (frontHdr stream) →
      stream.length < messageLen stream → EndsInPayload codec stream
  | later {stream : List UInt8} : Accepts codec (frontHdr stream) →
      messageLen stream ≤ stream.length → EndsInPayload codec (stream.drop (messageLen stream)) →
        EndsInPayload codec stream

variable {σ : Type*} {r : IoReader σ} {size : Nat} {b : Reader σ} {stream : List UInt8}
  {codec : BytesCodec}

theorem EndsInPayload.hdrSize_le (h : EndsInPayload codec stream) : hdrSize ≤ stream.length := by
  cases h with
  | here hlength _ _ => exact hlength
  | later _ hlength _ =>
    unfold messageLen at hlength
    omega

/-! ## The caller comes to an end -/

/-- The loop of the payload returns, if the failure is `io.EOF` or the bytes are there. -/
theorem readPayload_returns (hsize : 0 < size) (hdr : MsgHdr) {done : List UInt8}
    (hdone : done.length ≤ hdr.payloadLen.toNat) (h : Holds r b stream)
    (hends : r.failure = .eof ∨ hdr.payloadLen.toNat - done.length ≤ stream.length) {fuel : Nat}
    (hfuel : stream.length * maxEmptyReads + r.idle b.rd < fuel) :
    (∃ err next, readPayload r size hdr fuel done b = .ok (.failed err next)) ∨
    ∃ payload next, readPayload r size hdr fuel done b = .ok (.message hdr payload next) ∧
      hdr.payloadLen.toNat - done.length ≤ stream.length ∧
      Holds r next (stream.drop (hdr.payloadLen.toNat - done.length)) := by
  induction fuel generalizing done b stream with
  | zero => omega
  | succ fuel ih =>
    obtain ⟨rest, hread⟩ := h.read hsize (hdr.payloadLen.toNat - done.length)
    rw [readPayload]
    generalize read r size (hdr.payloadLen.toNat - done.length) b = result at hread
    have hle := hread.length_le
    have hlength : (done ++ result.bytes).length = done.length + result.bytes.length :=
      List.length_append
    have hsplit : stream.length = result.bytes.length + rest.length := by
      rw [hread.split, List.length_append]
    simp only
    split_ifs with heof hfull hbeyond
    · exact .inl ⟨_, _, rfl⟩
    · right
      have hcount : hdr.payloadLen.toNat - done.length = result.bytes.length := by omega
      refine ⟨_, _, rfl, by omega, ?_⟩
      rw [hcount, hread.split, List.drop_left]
      exact hread.holds
    · exact .inl ⟨_, _, rfl⟩
    · have hpos : 0 < hdr.payloadLen.toNat - done.length := by omega
      have hless : result.bytes = [] → r.idle result.next.rd < r.idle b.rd := by
        intro hnil
        refine hread.idle hpos hnil ?_
        -- a failure that is not the end of the file comes when no byte is left
        by_contra hsome
        obtain ⟨e, he⟩ := Option.ne_none_iff_exists'.1 hsome
        obtain ⟨rfl, hrest⟩ := hread.failure e he
        rw [hnil, hrest] at hsplit
        rcases hends with hend | hend
        · exact heof (he.trans (congrArg some hend))
        · simp only [List.length_nil] at hsplit
          omega
      rw [hsplit] at hfuel
      have henough := fuel_of_part hless (r.idle_lt result.next.rd) hfuel
      have hdone' : (done ++ result.bytes).length ≤ hdr.payloadLen.toNat := by omega
      have hdrop : stream.drop (hdr.payloadLen.toNat - done.length) =
          rest.drop (hdr.payloadLen.toNat - (done ++ result.bytes).length) := by
        rw [hread.split, List.drop_append, List.drop_of_length_le hle, List.nil_append]
        congr 1
        omega
      rcases ih hdone' hread.holds (hends.imp_right fun hend => by omega) henough with
        hfailed | ⟨payload, next, hloop, hrest, hholds⟩
      · exact .inl hfailed
      · exact .inr ⟨payload, next, hloop, by omega, hdrop ▸ hholds⟩

/-- `Decode` returns an error, or a message and a reader that has the bytes behind it. -/
theorem decode_returns (hsize : hdrSize ≤ size) (h : Holds r b stream)
    (hends : r.failure = .eof ∨ ¬ EndsInPayload codec stream) {fuel : Nat}
    (hfuel : (stream.length + 1) * maxEmptyReads ≤ fuel) :
    (∃ err next, decode r size codec fuel b = .ok (.failed err next)) ∨
    ∃ hdr payload next, decode r size codec fuel b = .ok (.message hdr payload next) ∧
      messageLen stream ≤ stream.length ∧ Holds r next (stream.drop (messageLen stream)) ∧
      (r.failure = .eof ∨ ¬ EndsInPayload codec (stream.drop (messageLen stream))) := by
  have hpos : 0 < hdrSize := Nat.succ_pos 15
  rcases h.peek hsize with ⟨bytes, e, next, hpeek⟩ | ⟨hlength, next, hpeek, hholds, hbuffered⟩
  · exact .inl ⟨e, next, by simp only [decode, hpeek]⟩
  by_cases haccepts : Accepts codec (frontHdr stream)
  · rw [decode_of_accepts hpeek haccepts]
    have hbehind : (stream.drop hdrSize).length = stream.length - hdrSize := List.length_drop
    have henough : r.failure = .eof ∨
        (frontHdr stream).payloadLen.toNat - ([] : List UInt8).length ≤
          (stream.drop hdrSize).length := by
      refine hends.imp_right fun hnot => ?_
      by_contra hshort
      refine hnot (.here hlength haccepts ?_)
      rw [List.length_nil] at hshort
      unfold messageLen
      omega
    have hidle := r.idle_lt (discard hdrSize next).rd
    have hless : (stream.drop hdrSize).length * maxEmptyReads ≤ stream.length * maxEmptyReads :=
      Nat.mul_le_mul_right _ (by omega)
    rw [Nat.add_mul, Nat.one_mul] at hfuel
    rcases readPayload_returns (by omega : 0 < size) (frontHdr stream) (Nat.zero_le _)
        (hholds.discard hbuffered) henough (by omega : _ < fuel) with
      hfailed | ⟨payload, last, hloop, hle, hlast⟩
    · exact .inl hfailed
    · have hmessage : messageLen stream ≤ stream.length := by
        rw [List.length_nil] at hle
        unfold messageLen
        omega
      rw [List.drop_drop, List.length_nil, Nat.sub_zero] at hlast
      exact .inr ⟨_, payload, last, hloop, hmessage, hlast,
        hends.imp_right fun hnot hrest => hnot (.later haccepts hmessage hrest)⟩
  · obtain ⟨err, hfailed⟩ := decode_of_not_accepts hpeek haccepts fuel
    exact .inl ⟨err, next, hfailed⟩

/-- The caller gets an error after finitely many calls. The induction is on the length of the
stream. -/
theorem receive_returns (hsize : hdrSize ≤ size) (h : Holds r b stream)
    (hends : r.failure = .eof ∨ ¬ EndsInPayload codec stream) {fuel : Nat}
    (hfuel : (stream.length + 1) * maxEmptyReads ≤ fuel) :
    ∃ count received, receive r size codec fuel count b = .ok received ∧ received.err.isSome := by
  induction hlen : stream.length using Nat.strongRecOn generalizing b stream with
  | ind n ih =>
    rcases decode_returns hsize h hends hfuel with
      ⟨err, next, hdecode⟩ | ⟨hdr, payload, next, hdecode, hle, hholds, hrest⟩
    · exact ⟨1, _, by rw [receive, hdecode]; rfl, rfl⟩
    · have hshorter : (stream.drop (messageLen stream)).length < n := by
        rw [List.length_drop]
        unfold messageLen hdrSize at hle ⊢
        omega
      have hless : ((stream.drop (messageLen stream)).length + 1) * maxEmptyReads ≤
          (stream.length + 1) * maxEmptyReads := Nat.mul_le_mul_right _ (by omega)
      obtain ⟨count, received, hreceive, hsome⟩ :=
        ih _ hshorter hholds hrest (Nat.le_trans hless hfuel) rfl
      refine ⟨count + 1,
        { received with messages := (hdr.msgId, payload) :: received.messages }, ?_, hsome⟩
      rw [receive, hdecode, ok_bind]
      simp only [hreceive, ok_bind]
      rfl

/-! ## The caller does not come to an end -/

theorem readPayload_mono {hdr : MsgHdr} {done : List UInt8} {fuel fuel' : Nat} {d : Decoded σ}
    (hle : fuel ≤ fuel') (hloop : readPayload r size hdr fuel done b = .ok d) :
    readPayload r size hdr fuel' done b = .ok d := by
  induction fuel generalizing done b fuel' with
  | zero => cases hloop
  | succ fuel ih =>
    obtain ⟨fuel', rfl⟩ : ∃ n, fuel' = n + 1 := ⟨fuel' - 1, by omega⟩
    rw [readPayload] at hloop ⊢
    simp only at hloop ⊢
    split_ifs at hloop ⊢ with heof hfull hbeyond
    · exact hloop
    · exact hloop
    · exact hloop
    · exact ih (by omega) hloop

/-- If the failure is not `io.EOF` and the payload is not all there, the loop never ends. -/
theorem readPayload_diverges (hsize : 0 < size) (hfailure : r.failure ≠ .eof) (hdr : MsgHdr)
    {done : List UInt8} (h : Holds r b stream)
    (hshort : done.length + stream.length < hdr.payloadLen.toNat) (fuel : Nat) :
    readPayload r size hdr fuel done b = .error .diverged := by
  induction fuel generalizing done b stream with
  | zero => rfl
  | succ fuel ih =>
    obtain ⟨rest, hread⟩ := h.read hsize (hdr.payloadLen.toNat - done.length)
    rw [readPayload]
    generalize read r size (hdr.payloadLen.toNat - done.length) b = result at hread
    have hlength : (done ++ result.bytes).length = done.length + result.bytes.length :=
      List.length_append
    have hsplit : stream.length = result.bytes.length + rest.length := by
      rw [hread.split, List.length_append]
    have heof : result.err ≠ some .eof := fun he => hfailure (hread.failure _ he).1.symm
    simp only
    rw [if_neg heof, if_neg (by omega), if_neg (by omega)]
    exact ih hread.holds (by omega)

theorem decode_accepted (hsize : hdrSize ≤ size) (h : Serves r size b stream)
    (hlength : hdrSize ≤ stream.length) (haccepts : Accepts codec (frontHdr stream)) :
    ∃ behind, Serves r size behind (stream.drop hdrSize) ∧ ∀ fuel,
      decode r size codec fuel b = readPayload r size (frontHdr stream) fuel [] behind := by
  obtain ⟨peeked, hpeek, hserves, hbuffered, _⟩ := peek_spec h hsize hlength
  refine ⟨discard hdrSize peeked, ?_, decode_of_accepts hpeek haccepts⟩
  have hdiscard := hserves.discard hdrSize
  rwa [← List.drop_append_of_le_length hbuffered, hserves.content] at hdiscard

/-- The loop of a payload that is all there, with more bytes behind it, can only return the
message. -/
theorem readPayload_whole (hdr : MsgHdr) {todo rest : List UInt8} (hrest : rest ≠ [])
    (hlength : todo.length = hdr.payloadLen.toNat) (h : Serves r size b (todo ++ rest))
    {fuel : Nat} {d : Decoded σ} (hloop : readPayload r size hdr fuel [] b = .ok d) :
    ∃ next, d = .message hdr todo next ∧ Serves r size next rest := by
  by_cases htodo : todo = []
  · subst htodo
    have hzero : hdr.payloadLen.toNat = 0 := hlength.symm
    cases fuel with
    | zero => cases hloop
    | succ fuel =>
      rcases read_zero h with ⟨hread, _⟩ | ⟨_, _, hnil, _⟩
      · rw [readPayload, hzero, List.length_nil, hread] at hloop
        cases hloop
        exact ⟨b, rfl, h⟩
      · exact absurd hnil hrest
  · have hlength' : ([] : List UInt8).length + todo.length = hdr.payloadLen.toNat := by
      rw [List.length_nil, Nat.zero_add, hlength]
    have hmore := readPayload_mono
      (show fuel ≤ fuel + (todo.length * maxEmptyReads + r.idle b.rd + 1) by omega) hloop
    rcases readPayload_spec hdr hlength' htodo h
        (show _ < fuel + (todo.length * maxEmptyReads + r.idle b.rd + 1) by omega) with
      ⟨next, hmessage, hserves, _⟩ | ⟨_, _, _, _, _, hnil, _⟩
    · rw [hmessage] at hmore
      cases hmore
      exact ⟨next, rfl, hserves⟩
    · exact absurd hnil hrest

/-- A caller whose stream ends inside of a payload with another failure gets no error, however
often it calls. -/
theorem receive_never_fails (hsize : hdrSize ≤ size) (hfailure : r.failure ≠ .eof)
    (hends : EndsInPayload codec stream) (h : Serves r size b stream) {fuel count : Nat}
    {received : Received σ} (hreceive : receive r size codec fuel count b = .ok received) :
    received.err = none := by
  have hpos : 0 < size := Nat.lt_of_lt_of_le (Nat.succ_pos 15) hsize
  induction hends generalizing b count received with
  | here hlength haccepts hshort =>
    rename_i stream
    cases count with
    | zero =>
      cases hreceive
      rfl
    | succ count =>
      obtain ⟨behind, hserves, hdecode⟩ := decode_accepted hsize h hlength haccepts
      have hbehind : (stream.drop hdrSize).length = stream.length - hdrSize := List.length_drop
      have hdiverges := readPayload_diverges hpos hfailure (frontHdr stream)
        hserves.holds (show ([] : List UInt8).length + _ < _ by
          rw [List.length_nil]
          unfold messageLen at hshort
          omega) fuel
      rw [receive, hdecode, hdiverges] at hreceive
      cases hreceive
  | later haccepts hwhole hends ih =>
    rename_i stream
    cases count with
    | zero =>
      cases hreceive
      rfl
    | succ count =>
      have hrest : stream.drop (messageLen stream) ≠ [] := by
        intro hnil
        have hlength := hends.hdrSize_le
        rw [hnil] at hlength
        exact absurd hlength (by decide)
      obtain ⟨behind, hserves, hdecode⟩ := decode_accepted hsize h
        (by unfold messageLen at hwhole; omega) haccepts
      have hsplit : stream.drop hdrSize = (stream.drop hdrSize).take
          (frontHdr stream).payloadLen.toNat ++ stream.drop (messageLen stream) := by
        rw [messageLen, ← List.drop_drop, List.take_append_drop]
      have hlength : ((stream.drop hdrSize).take (frontHdr stream).payloadLen.toNat).length =
          (frontHdr stream).payloadLen.toNat := by
        rw [List.length_take, List.length_drop]
        unfold messageLen at hwhole
        omega
      rw [hsplit] at hserves
      rw [receive, hdecode] at hreceive
      obtain ⟨d, hloop, hreceive⟩ := bind_eq_ok.mp hreceive
      obtain ⟨next, rfl, hnext⟩ := readPayload_whole _ hrest hlength hserves hloop
      obtain ⟨last, hlast, hresult⟩ := bind_eq_ok.mp hreceive
      cases hresult
      have hnone := ih hnext hlast
      exact hnone

/-- For every reader that delivers the bytes `r.remaining s` in any chunks and then fails, and
every limit of the codec: a caller that decodes until it gets an error comes to an end exactly if
the failure is `io.EOF` or does not hit a payload. -/
theorem stops_iff (r : IoReader σ) (codec : BytesCodec) (hsize : hdrSize ≤ size) {s : σ}
    (hopen : r.closing s = none) :
    (∃ fuel count received, receive r size codec fuel count ⟨[], none, s⟩ = .ok received ∧
      received.err.isSome) ↔
    r.failure = .eof ∨ ¬ EndsInPayload codec (r.remaining s) := by
  have hserves := serves_start r size hopen
  constructor
  · rintro ⟨fuel, count, received, hreceive, hsome⟩
    by_contra hnot
    obtain ⟨hfailure, hends⟩ := not_or.1 hnot
    rw [receive_never_fails hsize hfailure (not_not.1 hends) hserves hreceive] at hsome
    cases hsome
  · intro hends
    exact ⟨_, receive_returns hsize hserves.holds hends (Nat.le_refl _)⟩

/-- A reader over a list of bytes that returns at most `chunk + 1` of them at a time and then fails
on every call. -/
def brokenReader (chunk : Nat) (failure : GoError) : IoReader (List UInt8) where
  read s room :=
    ⟨s.take (min room (chunk + 1)), if s = [] then some failure else none,
      s.drop (min room (chunk + 1))⟩
  remaining s := s
  idle _ := 0
  closing _ := none
  failure := failure
  length_le := (supplyReader chunk).length_le
  delivers := (supplyReader chunk).delivers
  fails s room e he := by
    by_cases hs : s = []
    · rw [if_pos hs] at he
      cases he
      exact ⟨rfl, by rw [hs, List.drop_nil]⟩
    · rw [if_neg hs] at he
      cases he
  idles s room hpos hnil hnone := by
    rcases List.take_eq_nil_iff.mp hnil with hzero | hs
    · exact absurd hzero (Nat.ne_of_gt (Nat.lt_min.mpr ⟨hpos, Nat.succ_pos chunk⟩))
    · rw [if_pos hs] at hnone
      cases hnone
  idle_lt := (supplyReader chunk).idle_lt
  closes s room := by
    by_cases hs : s = []
    · exact (if_neg fun h => h.2 (by rw [hs, List.take_nil])).symm
    · rw [if_neg hs]
      exact (if_neg fun h => nomatch h.1).symm

/-- A header that announces a payload of one byte. -/
def oneByteHeader : List UInt8 :=
  (header 7 [0xAA]).write

/-- The connection is reset behind a whole message: the caller gets the message and then the
error. -/
theorem stops_iff_reset_behind_message : ∃ fuel count received,
    receive (brokenReader 4095 (.text "connection reset by peer")) 4096 ⟨0⟩ fuel count
      ⟨[], none, oneByteHeader ++ [0xAA]⟩ = .ok received ∧ received.err.isSome := by
  refine (stops_iff (brokenReader 4095 (.text "connection reset by peer")) ⟨0⟩ (by decide) rfl).2
    (.inr fun hends => ?_)
  cases hends with
  | here _ _ hshort => exact absurd hshort (by decide)
  | later _ _ hrest => exact absurd hrest.hdrSize_le (by decide)

/-- The connection is reset behind the header: the caller never gets an error. -/
theorem reset_in_payload_never_stops : ¬ ∃ fuel count received,
    receive (brokenReader 4095 (.text "connection reset by peer")) 4096 ⟨0⟩ fuel count
      ⟨[], none, oneByteHeader⟩ = .ok received ∧ received.err.isSome := by
  rintro ⟨fuel, count, received, hreceive, hsome⟩
  have haccepts : Accepts ⟨0⟩ (frontHdr oneByteHeader) := ⟨by decide, by decide, by decide⟩
  have hnone : received.err = none :=
    receive_never_fails (by decide) (by decide) (.here (by decide) haccepts (by decide))
      (serves_start _ _ rfl) hreceive
  rw [hnone] at hsome
  cases hsome

end HakunaMatata.GoCodec
