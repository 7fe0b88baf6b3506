import HakunaMatata.Base.Framing
import HakunaMatata.Tgw.Model

/-!
# Frames are printed wherever the stream is cut into segments

`verdict` is the decision that one iteration of the loop takes on the buffered bytes alone, and
`handleStep_spec` says that an iteration follows it for every ideal buffer, whether the frame is
swapped in place or copied. Between two segments only a proper part of a frame is buffered,
so that the next segment always fits (`handleSegments_spec`). `reassembly` puts both handlers next
to each other.
-/

namespace HakunaMatata.Tgw

open Base

/-- A frame: its type, its body and the checksum behind the body. -/
structure Frame where
  msgType : UInt32
  body : List UInt8
  checksum : UInt32
  deriving DecidableEq, Repr

/-- The bytes of a frame, in network order. -/
def Frame.bytes (frame : Frame) : List UInt8 :=
  storeWord .big 4 frame.msgType.toNat ++ (storeWord .big 4 frame.body.length ++
    (frame.body ++ storeWord .big tailSize frame.checksum.toNat))

/-- The line for a frame, with its type and the length of its body. -/
def Frame.line (frame : Frame) : String :=
  Hdr.line ⟨frame.msgType.toNat, frame.body.length⟩

/-- The size that frames and segments have at most. -/
def maxSize : Nat := 32 * 1024

theorem Frame.length_bytes (frame : Frame) :
    frame.bytes.length = hdrSize + frame.body.length + tailSize := by
  simp only [Frame.bytes, List.length_append, length_storeWord, hdrSize]
  omega

section Headers

variable {xs : List UInt8}

/-- The header at the front of the bytes, which are in network order. -/
def frontHeader (xs : List UInt8) : Hdr where
  msgType := loadWord .big (xs.take 4)
  bodyLength := loadWord .big ((xs.drop 4).take 4)

theorem Hdr.swap_read (swap32 : ByteSwap 4) (h : hdrSize ≤ xs.length) :
    (Hdr.read xs).swap swap32 = frontHeader xs := by
  unfold hdrSize at h
  have htype : (xs.take 4).length = 4 := by
    rw [List.length_take]
    omega
  have hlength : ((xs.drop 4).take 4).length = 4 := by
    rw [List.length_take, List.length_drop]
    omega
  simp only [Hdr.read, Hdr.swap, swap32.swap_loadWord htype, swap32.swap_loadWord hlength,
    frontHeader]

@[simp] theorem Hdr.length_write (hdr : Hdr) : hdr.write.length = hdrSize := by
  simp [Hdr.write, hdrSize]

theorem frontHeader_take {count : Nat} (h : hdrSize ≤ count) (xs : List UInt8) :
    frontHeader (xs.take count) = frontHeader xs := by
  unfold hdrSize at h
  have htype : (xs.take count).take 4 = xs.take 4 := by
    rw [List.take_take, Nat.min_eq_left (by omega)]
  have hlength : ((xs.take count).drop 4).take 4 = (xs.drop 4).take 4 := by
    rw [List.drop_take, List.take_take, Nat.min_eq_left (by omega)]
  rw [frontHeader, htype, hlength]
  rfl

theorem frontHeader_append (h : hdrSize ≤ xs.length) (ys : List UInt8) :
    frontHeader (xs ++ ys) = frontHeader xs := by
  rw [← frontHeader_take h, List.take_left]

theorem frontHeader_bytes {frame : Frame} (h : frame.body.length < 2 ^ 32) :
    frontHeader frame.bytes = ⟨frame.msgType.toNat, frame.body.length⟩ := by
  have htype : loadWord .big (storeWord .big 4 frame.msgType.toNat) = frame.msgType.toNat :=
    loadWord_storeWord .big frame.msgType.toNat_lt
  have hlength : loadWord .big (storeWord .big 4 frame.body.length) = frame.body.length :=
    loadWord_storeWord .big h
  have hfirst : frame.bytes.take 4 = storeWord .big 4 frame.msgType.toNat :=
    List.take_left' (length_storeWord ..)
  have hsecond : (frame.bytes.drop 4).take 4 = storeWord .big 4 frame.body.length := by
    rw [Frame.bytes, List.drop_left' (length_storeWord ..), List.take_left' (length_storeWord ..)]
  rw [frontHeader, hfirst, hsecond, htype, hlength]

end Headers

/-- What the loop does when these bytes are buffered. -/
def verdict (xs : List UInt8) : Verdict :=
  if xs.length < hdrSize then .wait
  else if (xs.length : Int) < totalLen (frontHeader xs) then .wait
  else .take (totalLen (frontHeader xs)).toNat

theorem verdict_eq_take_iff {xs : List UInt8} {count : Nat} :
    verdict xs = .take count ↔ hdrSize ≤ xs.length ∧
      totalLen (frontHeader xs) ≤ xs.length ∧ count = (totalLen (frontHeader xs)).toNat := by
  unfold verdict
  generalize totalLen (frontHeader xs) = total
  grind

theorem verdict_eq_wait_iff {xs : List UInt8} :
    verdict xs = .wait ↔ xs.length < hdrSize ∨ xs.length < totalLen (frontHeader xs) := by
  unfold verdict
  generalize totalLen (frontHeader xs) = total
  grind

theorem verdict_ne_reject {xs : List UInt8} : verdict xs ≠ .reject := by
  unfold verdict
  split_ifs <;> nofun

theorem verdict_bounded : Bounded verdict := by
  intro xs count htake
  obtain ⟨_, htotal, rfl⟩ := verdict_eq_take_iff.mp htake
  omega

/-- The decision to take a frame stays. -/
theorem verdict_stable : Stable verdict := by
  intro xs ys hne
  rw [Ne, verdict_eq_wait_iff, not_or, Nat.not_lt, Int.not_lt] at hne
  have hlong : (xs ++ ys).length = xs.length + ys.length := List.length_append
  rw [verdict_eq_take_iff.mpr ⟨hne.1, hne.2, rfl⟩, verdict_eq_take_iff, frontHeader_append hne.1]
  omega

/-- The length of a frame of the allowed size is what its header says. -/
theorem totalLen_bytes {frame : Frame} (h : frame.bytes.length ≤ maxSize) :
    totalLen (frontHeader frame.bytes) = frame.bytes.length := by
  have hlength := frame.length_bytes
  have hbody : frame.body.length < 2 ^ 31 := by
    unfold maxSize at h
    omega
  have htotal : totalLen ⟨frame.msgType.toNat, frame.body.length⟩ =
      hdrSize + frame.body.length + tailSize := by
    unfold maxSize at h
    apply i32_of_lt <;> simp only <;> omega
  rw [frontHeader_bytes (by omega), htotal, hlength]
  omega

/-- A frame of the allowed size is taken whole. -/
theorem verdict_bytes {frame : Frame} (h : frame.bytes.length ≤ maxSize) :
    verdict frame.bytes = .take frame.bytes.length := by
  have hlength := frame.length_bytes
  rw [verdict_eq_take_iff, totalLen_bytes h]
  omega

section Loop

variable {β : Type*} {swap32 : ByteSwap 4} {buffer : BytesBuffer β} {content : β → List UInt8}
  {capacity : Nat}

theorem swap_read_fetch (hfifo : IdealFifo buffer content capacity) {b : β}
    (hlen : hdrSize ≤ (content b).length) :
    (Hdr.read (buffer.fetch hdrSize b)).swap swap32 = frontHeader (content b) := by
  have hcopied : ((content b).take hdrSize).length = hdrSize := List.length_take_of_le hlen
  rw [hfifo.fetch _ _ hlen, Hdr.swap_read swap32 (Nat.le_of_eq hcopied.symm),
    frontHeader_take (Nat.le_refl _)]

theorem handleStep_wait (hfifo : IdealFifo buffer content capacity) (state : State β)
    (hwait : verdict (content state.buf) = .wait) :
    ∃ ctx, ctx.fp = state.ctx.fp ∧ handleStep swap32 buffer state = .exit ⟨ctx, state.buf⟩ := by
  have hreadable := hfifo.readable state.buf
  unfold handleStep
  by_cases hshort : buffer.readable state.buf < hdrSize
  · exact ⟨state.ctx, rfl, if_pos hshort⟩
  · have hlen : hdrSize ≤ (content state.buf).length := by omega
    have htotal : buffer.readable state.buf <
        totalLen ((Hdr.read (buffer.fetch hdrSize state.buf)).swap swap32) := by
      rw [swap_read_fetch hfifo hlen, hreadable]
      exact (verdict_eq_wait_iff.mp hwait).resolve_left (Nat.not_lt.mpr hlen)
    refine ⟨_, ?_, (if_neg hshort).trans (if_pos htotal)⟩
    rfl

/-- Contiguous or copied bytes that hold a header start with that of the buffer. -/
theorem frontHeader_of_isPrefix {bytes xs : List UInt8} (h : bytes <+: xs)
    (hlength : hdrSize ≤ bytes.length) : frontHeader bytes = frontHeader xs := by
  obtain ⟨ys, rfl⟩ := h
  exact (frontHeader_append hlength ys).symm

/-- The buffer after its first header was overwritten and bytes were skipped. Only bytes that stay
can have changed. -/
theorem content_overwrite_move (hfifo : IdealFifo buffer content capacity) (hdr : Hdr) (b : β)
    (hlen : hdrSize ≤ (content b).length) {total : Int} (htotal : total ≤ (content b).length) :
    let rest := content (buffer.readerMove total (buffer.overwrite hdr.write b))
    rest.length = (content b).length - total.toNat ∧
      (hdrSize ≤ total.toNat → rest = (content b).drop total.toNat) := by
  have hcontent := hfifo.overwrite hdr.write b (by rw [Hdr.length_write]; exact hlen)
  rw [Hdr.length_write] at hcontent
  have hlength : (content (buffer.overwrite hdr.write b)).length = (content b).length := by
    rw [hcontent, List.length_append, Hdr.length_write, List.length_drop]
    omega
  have hmove := hfifo.readerMove total (buffer.overwrite hdr.write b) (by omega)
  refine ⟨by rw [hmove, List.length_drop, hlength], fun hheader => ?_⟩
  -- the swapped header lies inside the part that is skipped
  rw [hmove, hcontent, List.drop_append, Hdr.length_write,
    List.drop_of_length_le (by rw [Hdr.length_write]; exact hheader), List.nil_append,
    List.drop_drop]
  congr 1
  omega

/-- An iteration that takes a frame prints the line of the header and skips the frame. If the
frame is shorter than a header, this may access bytes outside of it. -/
theorem handleStep_take (hfifo : IdealFifo buffer content capacity) (state : State β) {count : Nat}
    (htake : verdict (content state.buf) = .take count) :
    (count < hdrSize ∧ handleStep swap32 buffer state = .fault .outOfBounds) ∨
    ∃ buf, handleStep swap32 buffer state =
        .again ⟨state.ctx.print (frontHeader (content state.buf)).line, buf⟩ ∧
      (content buf).length = (content state.buf).length - count ∧
      (hdrSize ≤ count → content buf = (content state.buf).drop count) := by
  obtain ⟨hlen, htotal, rfl⟩ := verdict_eq_take_iff.mp htake
  have hreadable := hfifo.readable state.buf
  have hheader : (Hdr.read (buffer.fetch hdrSize state.buf)).swap swap32 =
      frontHeader (content state.buf) := swap_read_fetch hfifo hlen
  unfold handleStep
  simp only [hheader]
  rw [if_neg (by omega), if_neg (by omega)]
  cases hreader : buffer.readerFc (totalLen (frontHeader (content state.buf))) state.buf with
  | none =>
    obtain ⟨hbytes, hrest⟩ := hfifo.read _ _ htotal
    have hcopied := congrArg List.length hbytes
    rw [List.length_take] at hcopied
    simp only
    split_ifs with hshort
    · exact .inl ⟨by omega, rfl⟩
    · have hlong := Nat.not_lt.mp hshort
      rw [Hdr.swap_read swap32 hlong,
        frontHeader_of_isPrefix (hbytes ▸ List.take_prefix ..) hlong]
      exact .inr ⟨_, rfl, by rw [hrest, List.length_drop], fun _ => hrest⟩
  | some bytes =>
    obtain ⟨hstart, hcount⟩ := hfifo.readerFc _ _ _ htotal hreader
    simp only
    split_ifs with hshort
    · exact .inl ⟨by omega, rfl⟩
    · have hlong := Nat.not_lt.mp hshort
      rw [Hdr.swap_read swap32 hlong, frontHeader_of_isPrefix hstart hlong]
      exact .inr ⟨_, rfl, content_overwrite_move hfifo _ _ hlen htotal⟩

/-- An iteration that takes a frame with a header skips exactly the frame. -/
theorem handleStep_frame (hfifo : IdealFifo buffer content capacity) (state : State β) {count : Nat}
    (htake : verdict (content state.buf) = .take count) (hcount : hdrSize ≤ count) :
    ∃ buf, content buf = (content state.buf).drop count ∧
      handleStep swap32 buffer state =
        .again ⟨state.ctx.print (frontHeader (content state.buf)).line, buf⟩ := by
  rcases handleStep_take hfifo state htake with ⟨hshort, _⟩ | ⟨buf, hstep, _, hrest⟩
  · omega
  · exact ⟨buf, hrest hcount, hstep⟩

/-- The loop prints a line for each frame at the front of the buffer, in order. -/
theorem handleLoop_of_drains (hfifo : IdealFifo buffer content capacity) {xs rest : List UInt8}
    {frames : List (List UInt8)} (hdrains : Drains verdict xs frames true rest)
    (hframes : ∀ frame ∈ frames, hdrSize ≤ frame.length) (state : State β)
    (hbuf : content state.buf = xs) {fuel : Nat} (hfuel : frames.length < fuel) :
    ∃ state', handleLoop swap32 buffer fuel state = .ok state' ∧ content state'.buf = rest ∧
      state'.ctx.fp = state.ctx.fp ++ frames.map fun frame => (frontHeader frame).line := by
  generalize hok : true = ok at hdrains
  obtain ⟨fuel, rfl⟩ : ∃ n, fuel = n + 1 := ⟨fuel - 1, by omega⟩
  induction hdrains generalizing state fuel with
  | reject _ => cases hok
  | wait hwait =>
    subst hbuf
    obtain ⟨ctx, hfp, hstep⟩ := handleStep_wait hfifo state hwait
    exact ⟨⟨ctx, state.buf⟩, by rw [handleLoop, hstep], rfl, by simp [hfp]⟩
  | take htake _ ih =>
    rename_i zs count frames ok rest _
    subst hbuf
    have hcount : hdrSize ≤ count := by
      have hfirst := hframes _ List.mem_cons_self
      rw [List.length_take] at hfirst
      omega
    rw [List.length_cons] at hfuel
    obtain ⟨fuel, rfl⟩ : ∃ n, fuel = n + 1 := ⟨fuel - 1, by omega⟩
    obtain ⟨buf, hcontent, hstep⟩ := handleStep_frame hfifo state htake hcount
    obtain ⟨state', hloop, hrest, hfp⟩ := ih
      (fun frame hframe => hframes frame (List.mem_cons_of_mem _ hframe))
      ⟨state.ctx.print (frontHeader (content state.buf)).line, buf⟩ hcontent hok fuel (by omega)
    refine ⟨state', ?_, hrest, ?_⟩
    · rw [handleLoop, hstep]
      exact hloop
    · rw [hfp, List.map_cons, frontHeader_take hcount]
      simp [Context.print]

/-- A segment that fits the buffer is appended, and the frames that are complete then are
printed. -/
theorem handleTgw_of_drains (hfifo : IdealFifo buffer content capacity) {data rest : List UInt8}
    {frames : List (List UInt8)} (state : State β) (hdata : data.length ≤ maxSize)
    (hspace : data.length ≤ buffer.writable state.buf)
    (hdrains : Drains verdict (content state.buf ++ data) frames true rest)
    (hframes : ∀ frame ∈ frames, hdrSize ≤ frame.length) {fuel : Nat}
    (hfuel : frames.length < fuel) :
    ∃ state', handleTgw swap32 buffer fuel data state = .ok state' ∧ content state'.buf = rest ∧
      state'.ctx.fp = state.ctx.fp ++ frames.map fun frame => (frontHeader frame).line := by
  have hint : i32 data.length = data.length := by
    unfold maxSize at hdata
    exact i32_of_lt (by omega) (by omega)
  rw [handleTgw, hint, if_pos hspace]
  exact handleLoop_of_drains hfifo hdrains hframes _ (hfifo.write _ _ hspace) hfuel

/-- Every segment had room in the buffer when it was handled. -/
def NoneDropped (swap32 : ByteSwap 4) (buffer : BytesBuffer β) (fuel : Nat)
    (segments : List (List UInt8)) (state : State β) : Prop :=
  ∀ front data back, segments = front ++ data :: back →
    ∃ before, handleSegments swap32 buffer fuel front state = .ok before ∧
      data.length ≤ buffer.writable before.buf

/-- If a segment has room and the segments after it have, none is dropped. -/
theorem NoneDropped.cons {fuel : Nat} {data : List UInt8} {segments : List (List UInt8)}
    {state next : State β} (hspace : data.length ≤ buffer.writable state.buf)
    (hcall : handleTgw swap32 buffer fuel data state = .ok next)
    (hrest : NoneDropped swap32 buffer fuel segments next) :
    NoneDropped swap32 buffer fuel (data :: segments) state := by
  intro front data' back hsplit
  cases front with
  | nil =>
    obtain ⟨rfl, rfl⟩ := List.cons.inj hsplit
    exact ⟨state, rfl, hspace⟩
  | cons first front =>
    obtain ⟨rfl, rfl⟩ := List.cons.inj hsplit
    obtain ⟨before, hbefore, hfits⟩ := hrest front data' back rfl
    refine ⟨before, ?_, hfits⟩
    rw [handleSegments, hcall, ok_bind, hbefore]

theorem line_frontHeader {frames : List Frame}
    (hframes : ∀ frame ∈ frames, frame.bytes.length ≤ maxSize) :
    ((frames.map Frame.bytes).map fun bytes => (frontHeader bytes).line) =
      frames.map Frame.line := by
  rw [List.map_map]
  refine List.map_congr_left fun frame hframe => ?_
  have hsize := hframes frame hframe
  have hlength := frame.length_bytes
  unfold maxSize at hsize
  rw [Function.comp_apply, frontHeader_bytes (by omega), Frame.line]

/-- From a buffer that waits for the rest of a frame on, the segments print the lines of the frames
that they complete. The induction is on the segments, with the frames that are still to come. -/
theorem handleSegments_spec (hfifo : IdealFifo buffer content capacity)
    (hcapacity : 64 * 1024 - 1 ≤ capacity) (segments : List (List UInt8)) (frames : List Frame)
    (hframes : ∀ frame ∈ frames, frame.bytes.length ≤ maxSize)
    (hsegments : ∀ data ∈ segments, data.length ≤ maxSize) (state : State β)
    (hstream : content state.buf ++ segments.flatten = (frames.map Frame.bytes).flatten)
    (hwait : verdict (content state.buf) = .wait) (hpart : (content state.buf).length < maxSize)
    {fuel : Nat} (hfuel : frames.length < fuel) :
    ∃ state', handleSegments swap32 buffer fuel segments state = .ok state' ∧
      state'.ctx.fp = state.ctx.fp ++ frames.map Frame.line ∧ content state'.buf = [] ∧
      NoneDropped swap32 buffer fuel segments state := by
  have hwhole : ∀ bytes ∈ frames.map Frame.bytes, verdict bytes = .take bytes.length := by
    intro bytes hbytes
    obtain ⟨frame, hframe, rfl⟩ := List.mem_map.mp hbytes
    exact verdict_bytes (hframes frame hframe)
  induction segments generalizing frames state with
  | nil =>
    rw [List.flatten_nil, List.append_nil] at hstream
    have hall : Drains verdict (content state.buf) (frames.map Frame.bytes) true [] := by
      have hnothing : Drains verdict [] [] true [] := .wait rfl
      rw [hstream]
      simpa using hnothing.flatten_append verdict_stable hwhole
    obtain ⟨hnone, _, hempty⟩ := hall.of_waiting hwait
    obtain rfl := List.map_eq_nil_iff.mp hnone
    refine ⟨state, rfl, by simp, hempty.symm, ?_⟩
    intro front data back hsplit
    simp at hsplit
  | cons data segments ih =>
    rw [List.flatten_cons, ← List.append_assoc] at hstream
    have hdata := hsegments data List.mem_cons_self
    have hspace : data.length ≤ buffer.writable state.buf := by
      rw [hfifo.writable]
      unfold maxSize at hpart hdata
      omega
    obtain ⟨done, next, rest, rfl, hdrains, hrest, hincomplete⟩ :=
      drains_of_flatten verdict_stable verdict_bounded rfl
        (fun frame hframe => verdict_bytes (hframes frame hframe)) hstream
    rw [List.length_append] at hfuel
    have hheaders : ∀ bytes ∈ done.map Frame.bytes, hdrSize ≤ bytes.length := by
      intro bytes hbytes
      obtain ⟨frame, _, rfl⟩ := List.mem_map.mp hbytes
      have hlength := frame.length_bytes
      omega
    obtain ⟨middle, hcall, hmiddle, hfp⟩ := handleTgw_of_drains hfifo state hdata hspace hdrains
      hheaders (show (done.map Frame.bytes).length < fuel by rw [List.length_map]; omega)
    subst hmiddle
    have hshort : (content middle.buf).length < maxSize := by
      rcases hincomplete with hnil | ⟨frame, more, rfl, _, hlt⟩
      · rw [hnil]
        exact Nat.succ_pos _
      · have hsize := hframes frame (by simp)
        omega
    obtain ⟨state', hrun, hprinted, hempty, hdropped⟩ := ih next
      (fun frame hframe => hframes frame (by simp [hframe]))
      (fun d hd => hsegments d (by simp [hd])) middle hrest hdrains.waits hshort (by omega)
      (fun bytes hbytes => hwhole bytes (by rw [List.map_append]; simp [hbytes]))
    refine ⟨state', ?_, ?_, hempty, hdropped.cons hspace hcall⟩
    · rw [handleSegments, hcall, ok_bind, hrun]
    · rw [hprinted, hfp, line_frontHeader (fun frame hframe => hframes frame (by simp [hframe])),
        List.map_append, List.append_assoc]

end Loop

theorem handleTgwImmediate_bytes (swap32 : ByteSwap 4) {frame : Frame}
    (h : frame.bytes.length ≤ maxSize) (ctx : Context) :
    (handleTgwImmediate swap32 ctx frame.bytes).1 = ctx.print frame.line := by
  have hlength := frame.length_bytes
  have hheader : (Hdr.read frame.bytes).swap swap32 =
      ⟨frame.msgType.toNat, frame.body.length⟩ := by
    unfold maxSize at h
    rw [Hdr.swap_read swap32 (by omega), frontHeader_bytes (by omega)]
  have hswapped : ((Hdr.mk frame.msgType.toNat frame.body.length).write ++
      frame.bytes.drop hdrSize).length = hdrSize + frame.body.length + tailSize := by
    rw [List.length_append, Hdr.length_write, List.length_drop]
    omega
  unfold handleTgwImmediate
  rw [if_neg (by omega)]
  simp only [hheader]
  rw [if_pos hswapped, Frame.line]

theorem handleSegmentsImmediate_bytes (swap32 : ByteSwap 4) {frames : List Frame}
    (hframes : ∀ frame ∈ frames, frame.bytes.length ≤ maxSize) (ctx : Context) :
    (handleSegmentsImmediate swap32 ctx (frames.map Frame.bytes)).fp =
      ctx.fp ++ frames.map Frame.line := by
  induction frames generalizing ctx with
  | nil => simp [handleSegmentsImmediate]
  | cons frame frames ih =>
    have hrest := ih (fun f hf => hframes f (by simp [hf])) (ctx.print frame.line)
    have hfirst := handleTgwImmediate_bytes swap32 (hframes frame (by simp)) ctx
    rw [handleSegmentsImmediate, List.map_cons, List.foldl_cons, hfirst]
    rw [handleSegmentsImmediate] at hrest
    rw [hrest, Context.print, List.map_cons, List.append_assoc, List.singleton_append]

/-- Frames of at most 32 KiB whose stream is cut anywhere into segments of 1 byte to 32 KiB: the
calls of `handle_tgw` print exactly the line of each frame, in order, drop no segment and leave an
empty buffer. If each segment is one frame, `handle_tgw_immediate` prints the same. -/
theorem reassembly {β : Type*} (swap32 : ByteSwap 4) {buffer : BytesBuffer β}
    {content : β → List UInt8} {capacity : Nat} (hfifo : IdealFifo buffer content capacity)
    (hcapacity : 64 * 1024 - 1 ≤ capacity) (frames : List Frame)
    (hframes : ∀ frame ∈ frames, frame.bytes.length ≤ maxSize)
    (segments : List (List UInt8))
    (hsegments : ∀ data ∈ segments, 1 ≤ data.length ∧ data.length ≤ maxSize)
    (hstream : segments.flatten = (frames.map Frame.bytes).flatten) (state : State β)
    (hempty : content state.buf = []) (fuel : Nat) (hfuel : frames.length < fuel) :
    ∃ state', handleSegments swap32 buffer fuel segments state = .ok state' ∧
      state'.ctx.fp = state.ctx.fp ++ frames.map Frame.line ∧ content state'.buf = [] ∧
      NoneDropped swap32 buffer fuel segments state ∧
      (segments = frames.map Frame.bytes →
        (handleSegmentsImmediate swap32 state.ctx segments).fp = state'.ctx.fp) := by
  have hshort : (content state.buf).length < maxSize := by
    rw [hempty]
    exact Nat.succ_pos _
  obtain ⟨state', hrun, hfp, hleft, hdropped⟩ := handleSegments_spec hfifo hcapacity segments
    frames hframes (fun data hdata => (hsegments data hdata).2) state
    (by rw [hempty, List.nil_append, hstream]) (by rw [hempty]; rfl) hshort hfuel
  refine ⟨state', hrun, hfp, hleft, hdropped, ?_⟩
  rintro rfl
  rw [handleSegmentsImmediate_bytes swap32 hframes, hfp]

/-- Two frames in three segments, with a buffer that hands out at most 12 contiguous bytes: the
first frame is copied, the second is swapped in place. -/
theorem reassembly_two :
    ∃ state', handleSegments (byteSwap 4) (listBuffer 65535 12) 3
        [[0, 0, 0, 7, 0], [0, 0, 1, 0xAA, 0, 0, 0, 9, 0, 0], [0, 8, 0, 0, 0, 0, 0, 0, 0, 5]]
        ⟨⟨1, [], []⟩, []⟩ = .ok state' ∧
      state'.ctx.fp =
        ["  - TGW|MsgType=7;BodyLength=1\n", "  - TGW|MsgType=8;BodyLength=0\n"] ∧
      state'.buf = [] := by
  obtain ⟨state', hrun, hfp, hleft, _⟩ := reassembly (byteSwap 4) (listBuffer_ideal 65535 12)
    (by decide)
    [⟨7, [0xAA], 9⟩, ⟨8, [], 5⟩] (by decide)
    [[0, 0, 0, 7, 0], [0, 0, 1, 0xAA, 0, 0, 0, 9, 0, 0], [0, 8, 0, 0, 0, 0, 0, 0, 0, 5]]
    (by decide) (by decide) ⟨⟨1, [], []⟩, []⟩ rfl 3 (by decide)
  exact ⟨state', hrun, hfp, hleft⟩

end HakunaMatata.Tgw
