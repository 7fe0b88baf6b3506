import HakunaMatata.Tgw.Reassembly
import Mathlib.Logic.Relation

/-!
# Progress of the TGW parser on hostile data

`total_len` is the sum of the header, the body and the tail as an `int`. A body length of
`2 ^ 31 - 12` or more makes it negative, zero, or at most eleven. The buffer ignores a move by zero
or less, so that such a frame is printed without being taken. `progress_iff` is the exact condition
on the buffered bytes for the loop to come to an end and to take each frame as a whole: they are
whole frames whose bodies are shorter than that, followed by bytes for which the loop waits.
-/

namespace HakunaMatata.Tgw

open Base

/-- The length of the frame at the front of the bytes as its header announces it. -/
def announced (xs : List UInt8) : Nat :=
  hdrSize + (frontHeader xs).bodyLength + tailSize

section Progress

variable {β : Type*} (swap32 : ByteSwap 4) (buffer : BytesBuffer β) (content : β → List UInt8)

/-- The state in which the loop of `handle_tgw` starts. -/
def received (data : List UInt8) (state : State β) : State β :=
  if i32 data.length ≤ buffer.writable state.buf then
    { state with buf := buffer.write data state.buf }
  else state

/-- An iteration that does not exit. -/
def Iterates (state state' : State β) : Prop :=
  handleStep swap32 buffer state = .again state'

/-- Every iteration from this state on that does not exit takes the announced bytes, which are
there. -/
def TakesAnnounced (start : State β) : Prop :=
  ∀ state state', Relation.ReflTransGen (Iterates swap32 buffer) start state →
    Iterates swap32 buffer state state' →
      announced (content state.buf) ≤ (content state.buf).length ∧
        content state'.buf = (content state.buf).drop (announced (content state.buf))

/-- A frame with a body of fewer than `2 ^ 31 - 12` bytes, all of which are there. -/
def Whole (frame : List UInt8) : Prop :=
  (frontHeader frame).bodyLength < 2 ^ 31 - 12 ∧
    frame.length = 12 + (frontHeader frame).bodyLength

/-- A part of a header, or a part of such a frame. With a body length of `2 ^ 32 - 12` or more the
sum is less than twelve, and the loop waits for that many bytes. -/
def Incomplete (rest : List UInt8) : Prop :=
  rest.length < 8 ∨
    (frontHeader rest).bodyLength < 2 ^ 31 - 12 ∧
      rest.length < 12 + (frontHeader rest).bodyLength ∨
    2 ^ 32 - 12 ≤ (frontHeader rest).bodyLength ∧
      rest.length + 2 ^ 32 < 12 + (frontHeader rest).bodyLength

/-- The bytes are whole frames, and then a part for which the loop waits. -/
def Honest (xs : List UInt8) : Prop :=
  ∃ (frames : List (List UInt8)) (rest : List UInt8), xs = frames.flatten ++ rest ∧
    (∀ frame ∈ frames, Whole frame) ∧ Incomplete rest

variable {swap32 buffer content} {capacity : Nat}

theorem handleTgw_eq (fuel : Nat) (data : List UInt8) (state : State β) :
    handleTgw swap32 buffer fuel data state =
      handleLoop swap32 buffer fuel (received buffer data state) := by
  unfold handleTgw received
  split_ifs <;> rfl

/-- The announced length is read from the header alone. -/
theorem announced_take {count : Nat} (h : hdrSize ≤ count) (xs : List UInt8) :
    announced (xs.take count) = announced xs := by
  rw [announced, frontHeader_take h, announced]

theorem hdrSize_le_announced (xs : List UInt8) : hdrSize ≤ announced xs := by
  unfold announced
  omega

/-- A frame is taken with its announced length exactly if that is an `int`. -/
theorem take_eq_announced_iff {xs : List UInt8} {count : Nat} (htake : verdict xs = .take count) :
    count = announced xs ↔ (frontHeader xs).bodyLength < 2 ^ 31 - 12 := by
  obtain ⟨_, _, rfl⟩ := verdict_eq_take_iff.mp htake
  have hbounds := i32_bounds (hdrSize + (frontHeader xs).bodyLength + tailSize)
  unfold totalLen announced
  constructor
  · intro hcount
    simp only [hdrSize, tailSize] at hcount hbounds ⊢
    omega
  · intro hbody
    rw [i32_of_lt (by omega) (by simp only [hdrSize, tailSize]; omega)]
    omega

theorem frontHeader_bodyLength_lt (xs : List UInt8) : (frontHeader xs).bodyLength < 2 ^ 32 := by
  have hlt := loadWord_lt .big ((xs.drop 4).take 4)
  have hle : ((xs.drop 4).take 4).length ≤ 4 := List.length_take_le ..
  exact Nat.lt_of_lt_of_le hlt (Nat.pow_le_pow_right (Nat.succ_pos 255) hle)

theorem verdict_eq_wait_iff_incomplete {rest : List UInt8} :
    verdict rest = .wait ↔ Incomplete rest := by
  have hlt := frontHeader_bodyLength_lt rest
  rw [verdict_eq_wait_iff, Incomplete, totalLen]
  simp only [hdrSize, tailSize]
  rcases Nat.lt_or_ge (frontHeader rest).bodyLength (2 ^ 31 - 12) with hbody | hbody
  · rw [i32_of_lt (by omega) (by omega)]
    omega
  · rw [i32_of_ge (by omega) (by omega)]
    omega

theorem Whole.verdict_eq {frame : List UInt8} (h : Whole frame) :
    verdict frame = .take frame.length := by
  obtain ⟨hbody, hlength⟩ := h
  have htotal : totalLen (frontHeader frame) = frame.length := by
    unfold totalLen
    simp only [hdrSize, tailSize]
    rw [i32_of_lt (by omega) (by omega)]
    omega
  rw [verdict_eq_take_iff, htotal, hdrSize]
  omega

/-- Honest bytes are those from which the loop takes frames of the announced lengths until it
waits. -/
theorem honest_iff_drains {xs : List UInt8} :
    Honest xs ↔ ∃ frames rest, Drains verdict xs frames true rest ∧
      ∀ frame ∈ frames, frame.length = announced frame := by
  constructor
  · rintro ⟨frames, rest, rfl, hframes, hrest⟩
    have hdrains := (Drains.wait (verdict_eq_wait_iff_incomplete.2 hrest)).flatten_append
      verdict_stable fun frame hframe => (hframes frame hframe).verdict_eq
    rw [List.append_nil] at hdrains
    refine ⟨frames, rest, hdrains, fun frame hframe => ?_⟩
    rw [(hframes frame hframe).2, announced, hdrSize, tailSize]
    omega
  · rintro ⟨frames, rest, hdrains, hframes⟩
    generalize hok : true = ok at hdrains
    induction hdrains with
    | reject _ => cases hok
    | wait hwait => exact ⟨[], _, rfl, by simp, verdict_eq_wait_iff_incomplete.1 hwait⟩
    | @take xs count frames ok rest htake _ ih =>
      have hbound := verdict_bounded _ _ htake
      have hfirst := hframes _ List.mem_cons_self
      rw [List.length_take, Nat.min_eq_left hbound] at hfirst
      have hheader : hdrSize ≤ count := hfirst ▸ hdrSize_le_announced _
      rw [announced_take hheader] at hfirst
      obtain ⟨frames', rest', hsplit, hwhole, hpart⟩ :=
        ih (fun frame hframe => hframes frame (List.mem_cons_of_mem _ hframe)) hok
      refine ⟨xs.take count :: frames', rest', ?_, List.forall_mem_cons.2 ⟨?_, hwhole⟩, hpart⟩
      · rw [List.flatten_cons, List.append_assoc, ← hsplit, List.take_append_drop]
      · refine ⟨?_, ?_⟩
        · rw [frontHeader_take hheader]
          exact (take_eq_announced_iff htake).1 hfirst
        · rw [frontHeader_take hheader, List.length_take, Nat.min_eq_left hbound, hfirst,
            announced, hdrSize, tailSize]
          omega

theorem verdict_of_exit (hfifo : IdealFifo buffer content capacity) {state state' : State β}
    (hstep : handleStep swap32 buffer state = .exit state') :
    verdict (content state.buf) = .wait := by
  cases hverdict : verdict (content state.buf) with
  | wait => rfl
  | reject => exact absurd hverdict verdict_ne_reject
  | take count =>
    rcases handleStep_take hfifo state hverdict with ⟨_, hfault⟩ | ⟨buf, hagain, _⟩
    · rw [hfault] at hstep
      cases hstep
    · rw [hagain] at hstep
      cases hstep

theorem verdict_of_iterates (hfifo : IdealFifo buffer content capacity) {state state' : State β}
    (hstep : Iterates swap32 buffer state state') :
    ∃ count, verdict (content state.buf) = .take count ∧
      (content state'.buf).length = (content state.buf).length - count ∧
      (hdrSize ≤ count → content state'.buf = (content state.buf).drop count) := by
  unfold Iterates at hstep
  cases hverdict : verdict (content state.buf) with
  | wait =>
    obtain ⟨ctx, _, hexit⟩ := handleStep_wait hfifo state hverdict
    rw [hexit] at hstep
    cases hstep
  | reject => exact absurd hverdict verdict_ne_reject
  | take count =>
    rcases handleStep_take hfifo state hverdict with ⟨_, hfault⟩ | ⟨buf, hagain, hrest⟩
    · rw [hfault] at hstep
      cases hstep
    · rw [hagain] at hstep
      cases hstep
      exact ⟨count, rfl, hrest⟩

/-- If every iteration takes the announced bytes, so does every one after the first. -/
theorem TakesAnnounced.next {state state' : State β}
    (h : TakesAnnounced swap32 buffer content state)
    (hstep : Iterates swap32 buffer state state') : TakesAnnounced swap32 buffer content state' :=
  fun _ _ hreach => h _ _ (.head hstep hreach)

/-- A loop that comes to an end and takes the announced bytes has taken frames of the announced
lengths. The induction is on the fuel. -/
theorem drains_of_loop (hfifo : IdealFifo buffer content capacity) {fuel : Nat}
    {state state' : State β} (hloop : handleLoop swap32 buffer fuel state = .ok state')
    (htakes : TakesAnnounced swap32 buffer content state) :
    ∃ frames rest, Drains verdict (content state.buf) frames true rest ∧
      ∀ frame ∈ frames, frame.length = announced frame := by
  induction fuel generalizing state with
  | zero => cases hloop
  | succ fuel ih =>
    rw [handleLoop] at hloop
    cases hstep : handleStep swap32 buffer state with
    | exit last =>
      exact ⟨[], _, .wait (verdict_of_exit hfifo hstep), fun _ hmem => by cases hmem⟩
    | fault fault =>
      rw [hstep] at hloop
      cases hloop
    | again next =>
      rw [hstep] at hloop
      obtain ⟨count, hverdict, hlength, hrest⟩ := verdict_of_iterates hfifo hstep
      obtain ⟨hthere, htaken⟩ := htakes state next .refl hstep
      have hbound := verdict_bounded _ _ hverdict
      -- the frame was taken with its announced length
      have hcount : count = announced (content state.buf) := by
        rw [htaken, List.length_drop] at hlength
        omega
      have hheader : hdrSize ≤ count := hcount ▸ hdrSize_le_announced _
      obtain ⟨frames, rest, hdrains, hframes⟩ := ih hloop (htakes.next hstep)
      rw [hrest hheader] at hdrains
      refine ⟨_, rest, .take hverdict hdrains, fun frame hframe => ?_⟩
      rcases List.mem_cons.1 hframe with rfl | hframe
      · rw [announced_take hheader, List.length_take, ← hcount]
        exact Nat.min_eq_left hbound
      · exact hframes frame hframe

/-- On honest bytes every iteration takes the announced bytes. -/
theorem takesAnnounced_of_drains (hfifo : IdealFifo buffer content capacity)
    {xs rest : List UInt8} {frames : List (List UInt8)}
    (hdrains : Drains verdict xs frames true rest)
    (hframes : ∀ frame ∈ frames, frame.length = announced frame) {state : State β}
    (hbuf : content state.buf = xs) : TakesAnnounced swap32 buffer content state := by
  generalize hok : true = ok at hdrains
  induction hdrains generalizing state with
  | reject _ => cases hok
  | wait hwait =>
    subst hbuf
    obtain ⟨ctx, _, hexit⟩ := handleStep_wait hfifo state hwait
    -- no iteration goes on from here
    have hstuck : ∀ state', ¬ Iterates swap32 buffer state state' := by
      intro state' hstep
      rw [Iterates, hexit] at hstep
      cases hstep
    intro reached state' hreach hstep
    rcases hreach.cases_head with rfl | ⟨next, hnext, _⟩
    · exact absurd hstep (hstuck state')
    · exact absurd hnext (hstuck next)
  | take htake _ ih =>
    rename_i zs count frames ok rest _
    subst hbuf
    have hbound := verdict_bounded _ _ htake
    have hfirst := hframes _ List.mem_cons_self
    rw [List.length_take, Nat.min_eq_left hbound] at hfirst
    have hheader : hdrSize ≤ count := hfirst ▸ hdrSize_le_announced _
    rw [announced_take hheader] at hfirst
    obtain ⟨buf, hcontent, hagain⟩ := handleStep_frame hfifo state htake hheader
    intro reached state' hreach hstep
    rcases hreach.cases_head with rfl | ⟨next, hnext, hrest⟩
    · rw [Iterates, hagain] at hstep
      cases hstep
      rw [← hfirst]
      exact ⟨hbound, hcontent⟩
    · rw [Iterates, hagain] at hnext
      cases hnext
      exact ih (fun frame hframe => hframes frame (List.mem_cons_of_mem _ hframe)) hcontent hok
        reached state' hrest hstep

/-- For every content of the buffer and every segment: the loop of `handle_tgw` comes to an end
and each iteration that does not exit takes exactly the bytes of the announced frame, exactly if
the buffered bytes are whole frames and then a part for which the loop waits. -/
theorem progress_iff (swap32 : ByteSwap 4) (hfifo : IdealFifo buffer content capacity)
    (data : List UInt8) (state : State β) :
    ((∃ fuel state', handleTgw swap32 buffer fuel data state = .ok state') ∧
      TakesAnnounced swap32 buffer content (received buffer data state)) ↔
    Honest (content (received buffer data state).buf) := by
  simp only [handleTgw_eq, honest_iff_drains]
  constructor
  · rintro ⟨⟨fuel, state', hloop⟩, htakes⟩
    exact drains_of_loop hfifo hloop htakes
  · rintro ⟨frames, rest, hdrains, hframes⟩
    have hheaders : ∀ frame ∈ frames, hdrSize ≤ frame.length :=
      fun frame hframe => hframes frame hframe ▸ hdrSize_le_announced frame
    obtain ⟨state', hloop, _⟩ :=
      handleLoop_of_drains hfifo hdrains hheaders _ rfl (Nat.lt_succ_self frames.length)
    exact ⟨⟨_, state', hloop⟩, takesAnnounced_of_drains hfifo hdrains hframes rfl⟩

end Progress

/-- A frame of 13 bytes and the first bytes of the next one. -/
def frameAndPart : List UInt8 :=
  [0, 0, 0, 7, 0, 0, 0, 1, 0xAA, 0, 0, 0, 9, 0, 0, 0, 8]

/-- They arrive in an empty buffer: the loop takes the frame and ends. -/
theorem progress_iff_frameAndPart :
    (∃ fuel state', handleTgw (byteSwap 4) (listBuffer 65535 65535) fuel frameAndPart
      ⟨⟨1, [], []⟩, []⟩ = .ok state') ∧
    TakesAnnounced (byteSwap 4) (listBuffer 65535 65535) id
      (received (listBuffer 65535 65535) frameAndPart ⟨⟨1, [], []⟩, []⟩) := by
  have hstart : received (listBuffer 65535 65535) frameAndPart ⟨⟨1, [], []⟩, []⟩ =
      ⟨⟨1, [], []⟩, frameAndPart⟩ := if_pos (by decide +kernel)
  refine (progress_iff (byteSwap 4) (listBuffer_ideal 65535 65535) frameAndPart
    ⟨⟨1, [], []⟩, []⟩).2 ?_
  rw [hstart]
  refine ⟨[frameAndPart.take 13], frameAndPart.drop 13, rfl, ?_, .inl (by decide)⟩
  exact List.forall_mem_singleton.2 ⟨by decide, by decide⟩

/-- A header whose body length is `0x80000080`. It reads the same after it was swapped. -/
def hostileHeader : List UInt8 :=
  [0, 0, 0, 0, 0x80, 0, 0, 0x80]

/-- `total_len` is negative, so that nothing is taken. -/
theorem handleStep_hostileHeader (ctx : Context) :
    handleStep (byteSwap 4) (listBuffer 65535 65535) ⟨ctx, hostileHeader⟩ =
      .again ⟨ctx.print (frontHeader hostileHeader).line, hostileHeader⟩ := by
  have htotal : totalLen (frontHeader hostileHeader) = -2147483508 := by decide +kernel
  have hheader : (Hdr.read ((listBuffer 65535 65535).fetch hdrSize hostileHeader)).swap
      (byteSwap 4) = frontHeader hostileHeader :=
    swap_read_fetch (listBuffer_ideal 65535 65535) (Nat.le_refl 8)
  unfold handleStep
  simp only [hheader, htotal]
  rfl

/-- The loop goes on with the same buffer. -/
theorem handleLoop_hostileHeader (fuel : Nat) (ctx : Context) :
    handleLoop (byteSwap 4) (listBuffer 65535 65535) fuel ⟨ctx, hostileHeader⟩ =
      .error .diverged := by
  induction fuel generalizing ctx with
  | zero => rfl
  | succ fuel ih =>
    rw [handleLoop, handleStep_hostileHeader]
    exact ih _

/-- A segment with this header arrives in an empty buffer: the loop never ends. -/
theorem hostile_segment_diverges : ¬ ∃ fuel state',
    handleTgw (byteSwap 4) (listBuffer 65535 65535) fuel hostileHeader ⟨⟨1, [], []⟩, []⟩ =
      .ok state' := by
  rintro ⟨fuel, state', hcall⟩
  have hstart : received (listBuffer 65535 65535) hostileHeader ⟨⟨1, [], []⟩, []⟩ =
      ⟨⟨1, [], []⟩, hostileHeader⟩ := if_pos (by decide +kernel)
  rw [handleTgw_eq, hstart, handleLoop_hostileHeader] at hcall
  cases hcall

end HakunaMatata.Tgw
