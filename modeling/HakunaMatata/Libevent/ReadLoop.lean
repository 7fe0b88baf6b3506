import HakunaMatata.Base.Framing
import HakunaMatata.Base.Gather
import HakunaMatata.Libevent.Hostile

/-!
# The read callbacks of the libevent demo, `object_server.cpp` and `object_client.c`

Both callbacks cut frames off the input, at the length in network byte order that stands in front
of each one, and decode them. They differ in how they compare the length with the number of bytes
in the input: the server as two `int32_t`, the client as two `size_t`. A length of zero removes
nothing, so that the loop goes on forever. A negative length passes the test of the server, which
then copies to a null pointer, and fails that of the client. And some frames are decoded outside of
their memory. `read_loops_progress_iff` says that these are the only inputs on which the callbacks
do not agree or do not return.
-/

namespace HakunaMatata.Libevent

open Base

/-- What a callback leaves in the input, and the frames with the objects they were decoded to. -/
structure Read (ω : Type) where
  rest : List UInt8
  frames : List (List UInt8 × Option ω)
  deriving DecidableEq, Repr

section Loop

variable {ω : Type} (endian : Endian) (enough : Nat → BitVec 32 → Bool)
  (decode : List UInt8 → BitVec 32 → Except Fault (Option ω))

/-- `malloc` and `evbuffer_remove`: the bytes that are removed. A negative length is a size that
cannot be allocated, and the bytes are copied to a null pointer. -/
def removeFrame (input : List UInt8) (len : BitVec 32) : Except Fault (List UInt8) :=
  if len.toInt < 0 then .error .outOfBounds else .ok (input.take len.toNat)

/-- The loop of a read callback. The fuel bounds its iterations; the source has no bound. -/
def readLoop : Nat → List UInt8 → Except Fault (Read ω)
  | 0, _ => .error .diverged
  | fuel + 1, input =>
    if input.length < 4 then .ok ⟨input, []⟩
    else do
      let len ← get32 endian input 0
      if enough input.length len then do
        let frame ← removeFrame input len
        let obj ← decode frame len
        let read ← readLoop fuel (input.drop frame.length)
        return ⟨read.rest, (frame, obj) :: read.frames⟩
      else return ⟨input, []⟩

/-- `(int32_t)total_bytes >= len`. -/
def serverEnough (totalBytes : Nat) (len : BitVec 32) : Bool :=
  len.toInt ≤ (BitVec.ofNat 32 totalBytes).toInt

/-- `total_bytes >= len`, where `len` is converted to `size_t`. -/
def clientEnough (totalBytes : Nat) (len : BitVec 32) : Bool :=
  (len.signExtend 64).toNat ≤ totalBytes

/-- The loop of `myReadcb` in the server. -/
def serverLoop : Nat → List UInt8 → Except Fault (Read ω) :=
  readLoop endian serverEnough decode

/-- The loop of `myReadCb` in the client. -/
def clientLoop : Nat → List UInt8 → Except Fault (Read ω) :=
  readLoop endian clientEnough decode

/-- What the server writes: `bufferevent_write` of each frame. -/
def Read.echo (read : Read ω) : List UInt8 :=
  (read.frames.map Prod.fst).flatten

/-- The objects that the client got, without null pointers. -/
def Read.objects (read : Read ω) : List ω :=
  read.frames.filterMap Prod.snd

end Loop

/-! ## The length in front of a frame -/

section Lengths

variable {endian : Endian} {input : List UInt8}

/-- The length in front of the input. -/
def lengthWord (endian : Endian) (input : List UInt8) : BitVec 32 :=
  utilHton32 endian (BitVec.ofNat 32 (loadWord endian (input.take 4)))

theorem get32_lengthWord (h : 4 ≤ input.length) :
    get32 endian input 0 = .ok (lengthWord endian input) := by
  rw [get32, bytesAt_of_le h]
  rfl

/-- What the callbacks are to do: wait for a frame that is not complete, and take one that is. A
length that is not positive belongs to no frame. -/
def frameVerdict (endian : Endian) (input : List UInt8) : Verdict :=
  if input.length < 4 then .wait
  else if (lengthWord endian input).toInt ≤ 0 then .reject
  else if input.length < (lengthWord endian input).toNat then .wait
  else .take (lengthWord endian input).toNat

theorem toInt_eq_toNat {len : BitVec 32} (h : 0 ≤ len.toInt) : len.toInt = len.toNat := by
  rw [BitVec.toInt_eq_toNat_cond] at h ⊢
  have hlt := len.isLt
  split at h <;> omega

theorem frameVerdict_eq_take_iff {count : Nat} : frameVerdict endian input = .take count ↔
    4 ≤ input.length ∧ 0 < (lengthWord endian input).toInt ∧
      (lengthWord endian input).toNat ≤ input.length ∧
      count = (lengthWord endian input).toNat := by
  unfold frameVerdict
  grind

theorem frameVerdict_eq_reject_iff : frameVerdict endian input = .reject ↔
    4 ≤ input.length ∧ (lengthWord endian input).toInt ≤ 0 := by
  unfold frameVerdict
  grind

theorem frameVerdict_eq_wait_iff : frameVerdict endian input = .wait ↔
    input.length < 4 ∨ (0 < (lengthWord endian input).toInt ∧
      input.length < (lengthWord endian input).toNat) := by
  unfold frameVerdict
  grind

theorem frameVerdict_bounded : Bounded (frameVerdict endian) := by
  intro xs count htake
  obtain ⟨_, _, hle, rfl⟩ := frameVerdict_eq_take_iff.1 htake
  exact hle

theorem frameVerdict_pos (xs : List UInt8) (count : Nat)
    (htake : frameVerdict endian xs = .take count) : 0 < count := by
  obtain ⟨_, hpos, _, rfl⟩ := frameVerdict_eq_take_iff.1 htake
  have := toInt_eq_toNat (Int.le_of_lt hpos)
  omega

/-- The length is read from the first bytes only. -/
theorem frameVerdict_stable : Stable (frameVerdict endian) := by
  intro xs ys hne
  have hlen : 4 ≤ xs.length := by
    by_contra hlt
    exact hne (if_pos (Nat.lt_of_not_le hlt))
  have hword : lengthWord endian (xs ++ ys) = lengthWord endian xs := by
    unfold lengthWord
    rw [List.take_append_of_le_length hlen]
  unfold frameVerdict at hne ⊢
  rw [hword]
  grind

theorem toInt_ofNat_total {total : Nat} (htotal : total < 2 ^ 31) :
    (BitVec.ofNat 32 total).toInt = total := by
  rw [BitVec.toInt_eq_toNat_cond, BitVec.toNat_ofNat]
  split <;> omega

theorem serverEnough_iff {total : Nat} {len : BitVec 32} (htotal : total < 2 ^ 31)
    (hpos : 0 < len.toInt) : serverEnough total len = true ↔ len.toNat ≤ total := by
  have hlen := toInt_eq_toNat (Int.le_of_lt hpos)
  rw [serverEnough, decide_eq_true_iff, toInt_ofNat_total htotal, hlen]
  omega

theorem clientEnough_iff {total : Nat} {len : BitVec 32} (hpos : 0 < len.toInt) :
    clientEnough total len = true ↔ len.toNat ≤ total := by
  have hlen := toInt_eq_toNat (Int.le_of_lt hpos)
  have hbound : len.toNat < 2 ^ 31 := by
    have := len.toInt_lt
    omega
  have hself : BitVec.ofNat 32 len.toNat = len := by simp
  have hsize := toNat_signExtend_ofNat hbound
  rw [hself] at hsize
  rw [clientEnough, decide_eq_true_iff, hsize]

end Lengths

/-! ## Runs of the loop -/

section Runs

variable {ω : Type} {endian : Endian} {enough : Nat → BitVec 32 → Bool}
  {decode : List UInt8 → BitVec 32 → Except Fault (Option ω)} {input rest : List UInt8}
  {frames : List (List UInt8)}

/-- Below a limit of bytes in the input, the test compares a positive length as it is. -/
def Compares (enough : Nat → BitVec 32 → Bool) (limit : Nat) : Prop :=
  ∀ total len, total < limit → 0 < len.toInt → (enough total len = true ↔ len.toNat ≤ total)

theorem serverEnough_compares : Compares serverEnough (2 ^ 31) :=
  fun _ _ => serverEnough_iff

theorem clientEnough_compares (limit : Nat) : Compares clientEnough limit :=
  fun _ _ _ => clientEnough_iff

/-- A frame that is complete is removed and decoded, and the loop goes on behind it. -/
theorem readLoop_of_take (henough : enough input.length (lengthWord endian input) = true)
    {count : Nat} (htake : frameVerdict endian input = .take count) {obj : Option ω}
    (hdecode : decode (input.take count) (BitVec.ofNat 32 count) = .ok obj) (fuel : Nat) :
    readLoop endian enough decode (fuel + 1) input = (do
      let read ← readLoop endian enough decode fuel (input.drop count)
      return ⟨read.rest, (input.take count, obj) :: read.frames⟩) := by
  obtain ⟨hfour, hpos, hle, rfl⟩ := frameVerdict_eq_take_iff.1 htake
  have hself : BitVec.ofNat 32 (lengthWord endian input).toNat = lengthWord endian input := by simp
  rw [hself] at hdecode
  rw [readLoop, if_neg (by omega), get32_lengthWord hfour, ok_bind, if_pos henough, removeFrame,
    if_neg (by omega), ok_bind, hdecode, ok_bind, List.length_take, Nat.min_eq_left hle]

theorem readLoop_of_wait
    (henough : 4 ≤ input.length → enough input.length (lengthWord endian input) = false)
    (fuel : Nat) : readLoop endian enough decode (fuel + 1) input = .ok ⟨input, []⟩ := by
  rw [readLoop]
  by_cases hfour : input.length < 4
  · rw [if_pos hfour]
  · rw [if_neg hfour, get32_lengthWord (Nat.le_of_not_lt hfour), ok_bind,
      henough (Nat.le_of_not_lt hfour)]
    rfl

/-- The loop takes the frames of the input, whichever way it compares their lengths. -/
theorem readLoop_of_drains {limit : Nat} (hcompares : Compares enough limit)
    (hlen : input.length < limit) (h : Drains (frameVerdict endian) input frames true rest)
    {objOf : List UInt8 → Option ω}
    (hdecode : ∀ frame ∈ frames, decode frame (BitVec.ofNat 32 frame.length) = .ok (objOf frame)) :
    Ends (fun fuel => readLoop endian enough decode fuel input)
      ⟨rest, frames.map fun frame => (frame, objOf frame)⟩ := by
  generalize hok : true = ok at h
  induction h with
  | reject _ => cases hok
  | wait hwait =>
    refine Ends.of_round (fun fuel => readLoop_of_wait ?_ fuel) (Ends.of_eq fun _ => rfl)
    intro hfour
    rcases frameVerdict_eq_wait_iff.1 hwait with hshort | ⟨hpos, hlong⟩
    · omega
    · rw [← Bool.not_eq_true, hcompares _ _ hlen hpos]
      omega
  | @take xs count frames ok rest htake _ ih =>
    obtain ⟨_, hpos, hle, rfl⟩ := frameVerdict_eq_take_iff.1 htake
    have hcount : (xs.take (lengthWord endian xs).toNat).length =
        (lengthWord endian xs).toNat := by
      rw [List.length_take, Nat.min_eq_left hle]
    have hfirst := hdecode _ List.mem_cons_self
    rw [hcount] at hfirst
    have hrest := ih (by rw [List.length_drop]; omega)
      (fun frame hmem => hdecode frame (List.mem_cons_of_mem _ hmem)) hok
    refine Ends.of_round
      (fun fuel => readLoop_of_take ((hcompares _ _ hlen hpos).2 hle) htake hfirst fuel) ?_
    exact hrest.bind (Ends.of_eq fun _ => rfl)

/-- A length that is not positive passes the test of the server. -/
theorem serverEnough_of_le {total : Nat} {len : BitVec 32} (htotal : total < 2 ^ 31)
    (hle : len.toInt ≤ 0) : serverEnough total len = true := by
  rw [serverEnough, decide_eq_true_iff, toInt_ofNat_total htotal]
  omega

/-- With a length that is not positive the server copies to a null pointer, or removes nothing and
goes on forever. -/
theorem serverLoop_of_reject (hlen : input.length < 2 ^ 31)
    (hreject : frameVerdict endian input = .reject) (fuel : Nat) (read : Read ω) :
    serverLoop endian decode fuel input ≠ .ok read := by
  obtain ⟨hfour, hle⟩ := frameVerdict_eq_reject_iff.1 hreject
  intro hread
  induction fuel generalizing read with
  | zero => cases hread
  | succ fuel ih =>
    rw [serverLoop, readLoop, if_neg (by omega), get32_lengthWord hfour, ok_bind,
      if_pos (serverEnough_of_le hlen hle), removeFrame] at hread
    by_cases hneg : (lengthWord endian input).toInt < 0
    · rw [if_pos hneg] at hread
      cases hread
    · have hzero : (lengthWord endian input).toNat = 0 := by
        have := toInt_eq_toNat (Int.not_lt.1 hneg)
        omega
      rw [if_neg hneg, ok_bind, hzero, List.take_zero] at hread
      obtain ⟨_, _, hread⟩ := bind_eq_ok.1 hread
      obtain ⟨read', hread, _⟩ := bind_eq_ok.1 hread
      exact ih read' hread

/-- A server that returns has decoded the frame at the front of its input, and has gone on behind
it. -/
theorem serverLoop_take (hlen : input.length < 2 ^ 31) {count : Nat}
    (htake : frameVerdict endian input = .take count) {fuel : Nat} {read : Read ω}
    (hread : serverLoop endian decode fuel input = .ok read) :
    (∃ obj, decode (input.take count) (BitVec.ofNat 32 count) = .ok obj) ∧
      ∃ fuel' read', serverLoop endian decode fuel' (input.drop count) = .ok read' := by
  obtain ⟨hfour, hpos, hle, rfl⟩ := frameVerdict_eq_take_iff.1 htake
  cases fuel with
  | zero => cases hread
  | succ fuel =>
    rw [serverLoop, readLoop, if_neg (by omega), get32_lengthWord hfour, ok_bind,
      if_pos ((serverEnough_iff hlen hpos).2 hle), removeFrame, if_neg (by omega),
      ok_bind] at hread
    obtain ⟨obj, hobj, hread⟩ := bind_eq_ok.1 hread
    obtain ⟨read', hread, _⟩ := bind_eq_ok.1 hread
    rw [List.length_take, Nat.min_eq_left hle] at hread
    refine ⟨⟨obj, ?_⟩, fuel, read', hread⟩
    rwa [BitVec.ofNat_toNat, BitVec.setWidth_eq]

/-- A server that returns has met no length that is not positive, and has decoded every frame. -/
theorem drained_of_serverLoop (hlen : input.length < 2 ^ 31) {ok : Bool}
    (h : Drains (frameVerdict endian) input frames ok rest) {fuel : Nat} {read : Read ω}
    (hread : serverLoop endian decode fuel input = .ok read) :
    ok = true ∧
      ∀ frame ∈ frames, ∃ obj, decode frame (BitVec.ofNat 32 frame.length) = .ok obj := by
  induction h generalizing fuel read with
  | wait _ => exact ⟨rfl, by simp⟩
  | reject hreject => exact absurd hread (serverLoop_of_reject hlen hreject fuel read)
  | take htake _ ih =>
    obtain ⟨hobj, fuel', read', hread'⟩ := serverLoop_take hlen htake hread
    obtain ⟨hok, hrest⟩ := ih (by rw [List.length_drop]; omega) hread'
    refine ⟨hok, List.forall_mem_cons.2 ⟨?_, hrest⟩⟩
    rwa [List.length_take, Nat.min_eq_left (frameVerdict_bounded _ _ htake)]

end Runs

/-! ## Progress -/

section Progress

variable (endian : Endian)

/-- The loop of the server with its decoder; `junk` is what `malloc` leaves in the memory. -/
def serverRead (junk : Nat → UInt8) : Nat → List UInt8 → Except Fault (Read (List UInt8)) :=
  serverLoop endian fun frame len => ObjectMemory.decodeMsg endian frame junk len

/-- The loop of the client with its decoder. -/
def clientRead (junk : Nat → UInt8) : Nat → List UInt8 → Except Fault (Read (List UInt8)) :=
  clientLoop endian fun frame len => ObjectMemory.decodeMsg endian frame junk len

/-- Both callbacks return, each frame that they remove has at least one byte, and both remove the
same frames. -/
def Progresses (serverJunk clientJunk : Nat → UInt8) (input : List UInt8) : Prop :=
  ∃ server client : Read (List UInt8),
    Ends (fun fuel => serverRead endian serverJunk fuel input) server ∧
    Ends (fun fuel => clientRead endian clientJunk fuel input) client ∧
    server.rest = client.rest ∧ server.frames.map Prod.fst = client.frames.map Prod.fst ∧
    ∀ frame ∈ server.frames, 0 < frame.1.length

/-- The frame is shorter than a head, or its type and length fit the decoder. -/
def Decodable (frame : List UInt8) : Prop :=
  headSize ≤ frame.length →
    ∀ type, get32 endian frame 4 = .ok type → ObjectMemory.Fits type frame.length

/-- Following the lengths from the start, each of which is positive, the input is cut into frames
that can be decoded, and a rest with a frame that is not complete. -/
def CutIntoFrames (input : List UInt8) : Prop :=
  ∃ frames rest, Drains (frameVerdict endian) input frames true rest ∧
    ∀ frame ∈ frames, Decodable endian frame

variable {endian} {input rest : List UInt8} {frames : List (List UInt8)}

/-- What is taken are frames of the callbacks, and they are not empty. -/
theorem frames_of_drains {ok : Bool} (h : Drains (frameVerdict endian) input frames ok rest) :
    ∀ frame ∈ frames, ObjectMemory.IsFrame endian frame ∧ 0 < frame.length := by
  induction h with
  | wait _ => simp
  | reject _ => simp
  | take htake _ ih =>
    refine List.forall_mem_cons.2 ⟨?_, ih⟩
    have hcount := frameVerdict_pos _ _ htake
    obtain ⟨hfour, hpos, hle, rfl⟩ := frameVerdict_eq_take_iff.1 htake
    have hint := toInt_eq_toNat (Int.le_of_lt hpos)
    refine ⟨⟨_, _, get32_lengthWord hfour, Int.le_of_lt hpos, by omega, rfl⟩, ?_⟩
    rwa [List.length_take, Nat.min_eq_left hle]

theorem decodable_iff {frame : List UInt8} (h : ObjectMemory.IsFrame endian frame)
    (junk : Nat → UInt8) :
    (∃ obj, ObjectMemory.decodeMsg endian frame junk (BitVec.ofNat 32 frame.length) = .ok obj) ↔
      Decodable endian frame :=
  ObjectMemory.decodeMsg_ok_iff h.length_field.1 h.length_field.2 junk

/-- Either loop reads input that is cut into frames. -/
theorem exists_read {enough : Nat → BitVec 32 → Bool} {limit : Nat}
    (hcompares : Compares enough limit) (hlen : input.length < limit)
    (hdrains : Drains (frameVerdict endian) input frames true rest)
    (hframes : ∀ frame ∈ frames, Decodable endian frame) (junk : Nat → UInt8) :
    ∃ read : Read (List UInt8), Ends (fun fuel => readLoop endian enough
        (fun frame len => ObjectMemory.decodeMsg endian frame junk len) fuel input) read ∧
      read.rest = rest ∧ read.frames.map Prod.fst = frames := by
  let objOf := fun frame : List UInt8 =>
    ((ObjectMemory.decodeMsg endian frame junk (BitVec.ofNat 32 frame.length)).toOption).getD none
  refine ⟨⟨rest, frames.map fun frame => (frame, objOf frame)⟩, ?_, rfl, ?_⟩
  · refine readLoop_of_drains hcompares hlen hdrains fun frame hframe => ?_
    obtain ⟨obj, hobj⟩ :=
      (decodable_iff (frames_of_drains hdrains frame hframe).1 junk).2 (hframes frame hframe)
    simp only [objOf, hobj]
    rfl
  · rw [List.map_map]
    exact List.map_id frames

/-- For every input of fewer than `2 ^ 31` bytes and whatever `malloc` leaves in the memory: both
callbacks return without an access outside of the frames, the table of decoders and the allocated
memory, remove at least one byte in every iteration that goes on, and cut the input into the same
frames, exactly if no length that they meet is zero or negative and every frame that is complete
fits the decoder. -/
theorem read_loops_progress_iff (endian : Endian) (serverJunk clientJunk : Nat → UInt8)
    (input : List UInt8) (hlen : input.length < 2 ^ 31) :
    Progresses endian serverJunk clientJunk input ↔ CutIntoFrames endian input := by
  constructor
  · rintro ⟨server, _, ⟨bound, hserver⟩, _⟩
    have hbounded : Bounded (frameVerdict endian) := frameVerdict_bounded
    obtain ⟨frames, ok, rest, hdrains⟩ := exists_drains hbounded frameVerdict_pos input
    obtain ⟨rfl, hdecoded⟩ := drained_of_serverLoop hlen hdrains (hserver bound le_rfl)
    refine ⟨frames, rest, hdrains, fun frame hframe => ?_⟩
    exact (decodable_iff (frames_of_drains hdrains frame hframe).1 serverJunk).1
      (hdecoded frame hframe)
  · rintro ⟨frames, rest, hdrains, hframes⟩
    obtain ⟨server, hserver, hrest, hcut⟩ :=
      exists_read serverEnough_compares hlen hdrains hframes serverJunk
    obtain ⟨client, hclient, hrest', hcut'⟩ :=
      exists_read (clientEnough_compares _) (Nat.lt_succ_self _) hdrains hframes clientJunk
    refine ⟨server, client, hserver, hclient, hrest.trans hrest'.symm, hcut.trans hcut'.symm, ?_⟩
    intro frame hmem
    exact (frames_of_drains hdrains _ (hcut ▸ List.mem_map_of_mem hmem)).2

/-- The frame of a `TimeRecord`, a frame without a head, and a part of the next one. -/
theorem read_loops_progress_iff_two :
    Progresses .little (fun _ => 0) (fun _ => 1)
      (ObjectMemory.trFrame ++ [0, 0, 0, 5, 1] ++ [0, 0]) := by
  refine (read_loops_progress_iff .little _ _ _ (by decide)).2 ⟨_, _,
    .take (show frameVerdict .little _ = .take 40 by decide)
      (.take (show frameVerdict .little _ = .take 5 by decide) (.wait (by decide))), ?_⟩
  refine List.forall_mem_cons.2 ⟨fun _ type htype => ?_, List.forall_mem_singleton.2 ?_⟩
  · have htr : get32 .little ObjectMemory.trFrame 4 = .ok 2 := by decide
    cases htr.symm.trans htype
    decide
  · exact fun hhead => absurd hhead (by decide)

theorem readLoop_zeros {enough : Nat → BitVec 32 → Bool} (h : enough 4 0 = true) (fuel : Nat) :
    readLoop .little enough (fun frame len => ObjectMemory.decodeMsg .little frame (fun _ => 0) len)
      fuel [0, 0, 0, 0] = .error .diverged := by
  induction fuel with
  | zero => rfl
  | succ fuel ih =>
    refine Eq.trans (if_pos h) ?_
    -- nothing is removed, and the next iteration sees the same input
    show (readLoop .little enough _ fuel [0, 0, 0, 0] >>= _) = _
    rw [ih]
    rfl

/-- A length of zero keeps both loops going forever. A length of minus one makes the server copy to
a null pointer, and the client wait. A head with the type 3 is decoded outside of the table. -/
theorem bad_lengths_stop_progress :
    (∀ fuel, serverRead .little (fun _ => 0) fuel [0, 0, 0, 0] = .error .diverged) ∧
    (∀ fuel, clientRead .little (fun _ => 0) fuel [0, 0, 0, 0] = .error .diverged) ∧
    serverRead .little (fun _ => 0) 1 [255, 255, 255, 255] = .error .outOfBounds ∧
    clientRead .little (fun _ => 0) 1 [255, 255, 255, 255] = .ok ⟨[255, 255, 255, 255], []⟩ ∧
    serverRead .little (fun _ => 0) 2 ObjectMemory.typeMaxFrame = .error .outOfBounds ∧
    clientRead .little (fun _ => 0) 2 ObjectMemory.typeMaxFrame = .error .outOfBounds := by
  exact ⟨readLoop_zeros (by decide), readLoop_zeros (by decide), by decide, by decide, by decide,
    by decide⟩

end Progress

end HakunaMatata.Libevent
