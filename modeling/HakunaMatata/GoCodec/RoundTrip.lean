import HakunaMatata.GoCodec.Decoding

/-!
# A stream of messages through `Encode` and `Decode`

The encoded messages are delivered by any reader, in pieces of any size, and `Decode` is called
until it returns an error. All messages but the last one always arrive, and the error is `io.EOF`.
`stream_round_trip_iff` says exactly when the last one arrives too: the reader reports the end of
the stream only after the last bytes, or the last payload is not empty and the bytes that come with
the end are fewer than the buffer holds or reach back before this payload.
-/

namespace HakunaMatata.GoCodec

open Base Bufio

/-- The bytes that are sent for these messages. -/
def sent (messages : List (UInt32 × List UInt8)) : List UInt8 :=
  (messages.map fun m => encode m.1 m.2).flatten

theorem sent_cons (m : UInt32 × List UInt8) (messages : List (UInt32 × List UInt8)) :
    sent (m :: messages) = encode m.1 m.2 ++ sent messages := by
  simp [sent]

theorem length_le_sent (init : List (UInt32 × List UInt8)) (last : UInt32 × List UInt8) :
    last.2.length < (sent (init ++ [last])).length := by
  have hlast := (header last.1 last.2).length_write rfl rfl
  simp only [sent, List.map_append, List.flatten_append, List.length_append, List.map_cons,
    List.map_nil, List.flatten_cons, List.flatten_nil, List.append_nil, encode_eq, hlast, hdrSize]
  omega

variable {σ : Type*} {r : IoReader σ} {size : Nat} {b : Reader σ} {codec : BytesCodec}
  {fuel : Nat}

theorem receive_succ {msgId : UInt32} {payload : List UInt8} {b' : Reader σ}
    (hdecode : decode r size codec fuel b = .ok (.message (header msgId payload) payload b'))
    {calls : Nat} {got : Received σ} (hrest : receive r size codec fuel calls b' = .ok got) :
    receive r size codec fuel (calls + 1) b =
      .ok { got with messages := (msgId, payload) :: got.messages } := by
  rw [receive, hdecode, ok_bind]
  simp only [hrest, ok_bind]
  rfl

theorem receive_failed {err : GoError} {b' : Reader σ}
    (hdecode : decode r size codec fuel b = .ok (.failed err b')) (calls : Nat) :
    receive r size codec fuel (calls + 1) b = .ok ⟨[], some err, b'⟩ := by
  rw [receive, hdecode, ok_bind]
  rfl

/-- If no bytes ever come together with an error, every message arrives, whatever follows the
messages. -/
theorem receive_all (hlate : ∀ s, r.closing s = none) (hsize : hdrSize ≤ size)
    {messages : List (UInt32 × List UInt8)} (hallowed : ∀ m ∈ messages, Allowed codec m.2)
    (hfuel : ∀ m ∈ messages, (m.2.length + 1) * maxEmptyReads ≤ fuel) {rest : List UInt8}
    (h : Serves r size b (sent messages ++ rest)) :
    ∃ b', receive r size codec fuel messages.length b = .ok ⟨messages, none, b'⟩ ∧
      Serves r size b' rest := by
  induction messages generalizing b with
  | nil => exact ⟨b, rfl, h⟩
  | cons m messages ih =>
    rw [sent_cons, List.append_assoc] at h
    rcases decode_spec codec (hallowed m (by simp)) hsize h (hfuel m (by simp)) with
      ⟨b', hdecode, hserves, _⟩ | ⟨_, b', count, _, _, _, hclosing, _⟩
    · obtain ⟨last, hrest, hlast⟩ := ih (fun m hm => hallowed m (by simp [hm]))
        (fun m hm => hfuel m (by simp [hm])) hserves
      exact ⟨last, receive_succ hdecode hrest, hlast⟩
    · rw [hlate] at hclosing
      cases hclosing

/-- The messages before the last one arrive. The last one arrives or is lost, and what is known
about the bytes that came with the end of the stream says which. -/
theorem receive_spec (heof : r.failure = .eof) (hsize : hdrSize ≤ size)
    {init : List (UInt32 × List UInt8)} {last : UInt32 × List UInt8}
    (hallowed : ∀ m ∈ init ++ [last], Allowed codec m.2)
    (hfuel : ∀ m ∈ init ++ [last], (m.2.length + 1) * maxEmptyReads ≤ fuel)
    (h : Serves r size b (sent (init ++ [last])))
    (hclosing : ∀ count, r.closing b.rd = some count → count < size ∨ last.2.length < count)
    {calls : Nat} (hcalls : init.length + 1 < calls) :
    ∃ got b', receive r size codec fuel calls b = .ok ⟨got, some .eof, b'⟩ ∧
      ((got = init ++ [last] ∧ ∀ count, r.closing b'.rd = some count → ¬ Lost size last.2 count) ∨
        (got = init ∧ ∃ count, r.closing b'.rd = some count ∧ Lost size last.2 count)) := by
  obtain ⟨calls, rfl⟩ : ∃ n, calls = n + 1 := ⟨calls - 1, by omega⟩
  induction init generalizing b calls with
  | nil =>
    have hserves : Serves r size b (encode last.1 last.2 ++ []) := by
      simpa [sent] using h
    rcases decode_spec codec (hallowed last (by simp)) hsize hserves (hfuel last (by simp)) with
      ⟨b', hdecode, hend, hcount, hnone⟩ | ⟨d, b', count, hdecode, hfailed, _, hcount, hlost⟩
    · obtain ⟨calls, rfl⟩ : ∃ n, calls = n + 1 := ⟨calls - 1, by simp at hcalls; omega⟩
      obtain ⟨b'', hfinal, hsame⟩ := decode_end codec hsize hend fuel
      rw [heof] at hfinal
      refine ⟨[last], b'', receive_succ hdecode (receive_failed hfinal calls), Or.inl ⟨rfl, ?_⟩⟩
      intro count hclosed hlost
      rw [hsame] at hclosed
      rcases hlost with hempty | ⟨hlarge, hle⟩
      · rw [hnone rfl hempty] at hclosed
        cases hclosed
      · have hbound : count < size ∨ last.2.length < count := by
          rcases hcount with hkept | ⟨count', hcount', _, hbound⟩
          · exact hclosing count (hkept ▸ hclosed)
          · rw [hcount'] at hclosed
            cases hclosed
            exact hbound rfl
        omega
    · rw [hfailed heof] at hdecode
      exact ⟨[], b', receive_failed hdecode calls, Or.inr ⟨rfl, count, hcount, hlost⟩⟩
  | cons m init ih =>
    rw [List.cons_append, sent_cons] at h
    have hlength := length_le_sent init last
    rcases decode_spec codec (hallowed m (by simp)) hsize h (hfuel m (by simp)) with
      ⟨b', hdecode, hserves, hcount, _⟩ | ⟨_, _, _, _, _, hnil, _⟩
    · have hclosing' : ∀ count, r.closing b'.rd = some count →
          count < size ∨ last.2.length < count := by
        intro count hclosed
        rcases hcount with hkept | ⟨count', hcount', hlt, _⟩
        · exact hclosing count (hkept ▸ hclosed)
        · rw [hcount'] at hclosed
          cases hclosed
          omega
      obtain ⟨calls, rfl⟩ : ∃ n, calls = n + 1 := ⟨calls - 1, by simp at hcalls; omega⟩
      obtain ⟨got, b'', hrest, hgot⟩ := ih (fun m hm => hallowed m (by simp_all))
        (fun m hm => hfuel m (by simp_all)) hserves hclosing' calls (by simpa using hcalls)
      refine ⟨m :: got, b'', receive_succ hdecode hrest, ?_⟩
      simpa using hgot
    · rw [hnil] at hlength
      simp at hlength

/-- The messages are received as they were sent, followed by `io.EOF`, exactly if the last one is
not lost by the bytes that came together with the end of the stream. Nothing else can go wrong,
for any reader and any buffer. -/
theorem stream_round_trip_iff (heof : r.failure = .eof) (hsize : hdrSize ≤ size)
    (messages : List (UInt32 × List UInt8)) (hallowed : ∀ m ∈ messages, Allowed codec m.2)
    {s : σ} (hstream : r.remaining s = sent messages) (hstart : r.closing s = none)
    (hfuel : ∀ m ∈ messages, (m.2.length + 1) * maxEmptyReads ≤ fuel) {calls : Nat}
    (hcalls : messages.length < calls) :
    ∃ got b', receive r size codec fuel calls ⟨[], none, s⟩ = .ok ⟨got, some .eof, b'⟩ ∧
      (got = messages ↔ ∀ last ∈ messages.getLast?, ∀ count, r.closing b'.rd = some count →
        ¬ Lost size last.2 count) := by
  have hserves := serves_start r size hstart
  rw [hstream] at hserves
  rcases List.eq_nil_or_concat messages with rfl | ⟨init, last, rfl⟩
  · obtain ⟨calls, rfl⟩ : ∃ n, calls = n + 1 := ⟨calls - 1, by simp at hcalls; omega⟩
    obtain ⟨b', hfinal, _⟩ := decode_end codec hsize hserves fuel
    rw [heof] at hfinal
    exact ⟨[], b', receive_failed hfinal calls, by simp⟩
  · rw [List.concat_eq_append] at *
    have hnone : ∀ count, r.closing s = some count → count < size ∨ last.2.length < count := by
      intro count hclosed
      rw [hstart] at hclosed
      cases hclosed
    obtain ⟨got, b', hreceive, hgot⟩ := receive_spec heof hsize hallowed hfuel hserves hnone
      (by simpa using hcalls)
    refine ⟨got, b', hreceive, ?_⟩
    rcases hgot with ⟨rfl, hkept⟩ | ⟨rfl, count, hcount, hlost⟩
    · simpa using hkept
    · simp only [List.getLast?_append, List.getLast?_singleton, Option.some_or, Option.mem_some_iff,
        forall_eq']
      constructor
      · intro hsame
        simp at hsame
      · intro hkept
        exact absurd hlost (hkept count hcount)

/-- Two messages, the second without a payload, from a reader that delivers five bytes at a time
and reports the end on a call of its own. -/
theorem stream_round_trip_iff_two :
    ∃ got b', receive (listReader 4 false) 4096 ⟨1024⟩ 300 3
        ⟨[], none, (sent [(7, [0xAA, 0xBB]), (8, [])], none)⟩ = .ok ⟨got, some .eof, b'⟩ ∧
      (got = [(7, [0xAA, 0xBB]), (8, [])] ↔
        ∀ last ∈ [((7 : UInt32), ([0xAA, 0xBB] : List UInt8)), (8, [])].getLast?, ∀ count,
          (listReader 4 false).closing b'.rd = some count → ¬ Lost 4096 last.2 count) :=
  stream_round_trip_iff rfl (by decide) [(7, [0xAA, 0xBB]), (8, [])] (by unfold Allowed; decide)
    rfl rfl (by decide) (by decide)

/-- Two readers that report the end of the stream together with the last bytes, as an `io.Reader`
may. A message without a payload is lost, and so is one whose payload fills the buffer. -/
theorem stream_round_trip_lost :
    (∃ b', receive (listReader 63 true) 4096 ⟨1024⟩ 100 2 ⟨[], none, (sent [(7, [])], none)⟩ =
      .ok ⟨[], some .eof, b'⟩) ∧
    (∃ b', receive (listReader 15 true) 16 ⟨1024⟩ 1700 2
      ⟨[], none, (sent [(7, List.replicate 16 0xAA)], none)⟩ = .ok ⟨[], some .eof, b'⟩) :=
  ⟨⟨_, rfl⟩, ⟨_, rfl⟩⟩

end HakunaMatata.GoCodec
