import HakunaMatata.Libevent.Hostile
import HakunaMatata.Libevent.ReadLoop
import Mathlib.Data.List.Induction

/-!
# The echo service of the libevent demo

A client sends objects, the server echoes each frame when it is complete, and the client decodes
the echo. The stream may be cut into chunks anywhere, on the way there and on the way back, and a
read callback runs after each chunk. Both sides decode into the memory that `decodeMsg` allocates,
so that a `Bar` whose string has fewer than twelve characters is decoded out of bounds. The server
also compares the number of bytes in its input as an `int32_t`. `echo_service_iff` says that the
service does what it is for exactly if there is no such `Bar` and fewer than `2 ^ 31` bytes are in
the input of the server at a time.
-/

namespace HakunaMatata.Libevent

open Base

/-! ## Chunks -/

section Feed

variable {ω : Type} (loop : List UInt8 → Except Fault (Read ω))

/-- The chunks arrive one after the other, and the callback runs after each one. -/
def feed : List (List UInt8) → List UInt8 → Except Fault (Read ω)
  | [], input => .ok ⟨input, []⟩
  | chunk :: chunks, input => do
    let read ← loop (input ++ chunk)
    let later ← feed chunks read.rest
    return ⟨later.rest, read.frames ++ later.frames⟩

variable {loop}

theorem feed_snoc (chunks : List (List UInt8)) (chunk input : List UInt8) :
    feed loop (chunks ++ [chunk]) input = (do
      let read ← feed loop chunks input
      let last ← loop (read.rest ++ chunk)
      return ⟨last.rest, read.frames ++ last.frames⟩) := by
  induction chunks generalizing input with
  | nil =>
    simp only [List.nil_append, feed, ok_bind, pure, Except.pure, List.append_nil]
  | cons first chunks ih =>
    simp only [List.cons_append, feed, ih]
    cases loop (input ++ first) with
    | error fault => rfl
    | ok read =>
      simp only [ok_bind]
      cases feed loop chunks read.rest with
      | error fault => rfl
      | ok read' =>
        simp only [ok_bind, pure, Except.pure]
        cases loop (read'.rest ++ chunk) with
        | error fault => rfl
        | ok last => simp [ok_bind]

/-- A property of each run of the callback that every frame it removes has. -/
theorem feed_forall {P : List UInt8 × Option ω → Prop}
    (hloop : ∀ input read, loop input = .ok read → ∀ frame ∈ read.frames, P frame)
    {chunks : List (List UInt8)} {input : List UInt8} {read : Read ω}
    (h : feed loop chunks input = .ok read) : ∀ frame ∈ read.frames, P frame := by
  induction chunks generalizing input read with
  | nil =>
    cases h
    simp
  | cons chunk chunks ih =>
    obtain ⟨first, hfirst, h⟩ := bind_eq_ok.1 h
    obtain ⟨later, hlater, h⟩ := bind_eq_ok.1 h
    cases h
    exact List.forall_mem_append.2 ⟨hloop _ _ hfirst, ih hlater⟩

theorem feed_echo (hloop : ∀ input read, loop input = .ok read → read.echo ++ read.rest = input)
    {chunks : List (List UInt8)} {input : List UInt8} {read : Read ω}
    (h : feed loop chunks input = .ok read) : read.echo ++ read.rest = input ++ chunks.flatten := by
  induction chunks generalizing input read with
  | nil =>
    cases h
    simp [Read.echo]
  | cons chunk chunks ih =>
    obtain ⟨first, hfirst, h⟩ := bind_eq_ok.1 h
    obtain ⟨later, hlater, h⟩ := bind_eq_ok.1 h
    cases h
    have hfirst := hloop _ _ hfirst
    have hlater := ih hlater
    simp only [Read.echo, List.map_append, List.flatten_append, List.append_assoc,
      List.flatten_cons] at hfirst hlater ⊢
    rw [hlater, ← List.append_assoc, hfirst, List.append_assoc]

end Feed

section Loops

variable {ω : Type} {endian : Endian} {enough : Nat → BitVec 32 → Bool}
  {decode : List UInt8 → BitVec 32 → Except Fault (Option ω)} {fuel : Nat} {input : List UInt8}
  {read : Read ω}

theorem readLoop_cases (h : readLoop endian enough decode (fuel + 1) input = .ok read) :
    read = ⟨input, []⟩ ∨
    ∃ frame obj later, enough input.length (lengthWord endian input) = true ∧
      0 ≤ (lengthWord endian input).toInt ∧
      frame = input.take (lengthWord endian input).toNat ∧
      decode frame (lengthWord endian input) = .ok obj ∧
      readLoop endian enough decode fuel (input.drop frame.length) = .ok later ∧
      read = ⟨later.rest, (frame, obj) :: later.frames⟩ := by
  rw [readLoop] at h
  split at h
  · cases h
    exact .inl rfl
  · rename_i hfour
    rw [get32_lengthWord (Nat.le_of_not_lt hfour), ok_bind] at h
    split at h
    · rename_i henough
      obtain ⟨frame, hframe, h⟩ := bind_eq_ok.1 h
      obtain ⟨obj, hobj, h⟩ := bind_eq_ok.1 h
      obtain ⟨later, hlater, h⟩ := bind_eq_ok.1 h
      cases h
      unfold removeFrame at hframe
      split at hframe
      · cases hframe
      · rename_i hpos
        cases hframe
        exact .inr ⟨_, obj, later, henough, Int.not_lt.1 hpos, rfl, hobj, hlater, rfl⟩
    · cases h
      exact .inl rfl

theorem readLoop_echo (h : readLoop endian enough decode fuel input = .ok read) :
    read.echo ++ read.rest = input := by
  induction fuel generalizing input read with
  | zero => cases h
  | succ fuel ih =>
    rcases readLoop_cases h with rfl | ⟨frame, obj, later, _, _, hframe, _, hlater, rfl⟩
    · rfl
    · have hsplit : frame ++ input.drop frame.length = input := by
        rw [List.prefix_iff_eq_append.1 (hframe ▸ List.take_prefix _ _)]
      calc Read.echo ⟨later.rest, (frame, obj) :: later.frames⟩ ++ later.rest
          = frame ++ (later.echo ++ later.rest) := by simp [Read.echo]
        _ = input := by rw [ih hlater, hsplit]

/-- An `int` that passes the test of the server is at most the number of bytes, even if that does
not fit. -/
theorem le_of_serverEnough {total : Nat} {len : BitVec 32} (h : serverEnough total len = true)
    (hpos : 0 ≤ len.toInt) : len.toNat ≤ total ∧ total % 2 ^ 32 < 2 ^ 31 := by
  have hlen := toInt_eq_toNat hpos
  rw [serverEnough, decide_eq_true_iff, hlen, BitVec.toInt_eq_toNat_cond, BitVec.toNat_ofNat] at h
  split at h <;> omega

/-- Every frame that the server removes is decoded, with its length. -/
theorem serverLoop_decoded (h : serverLoop endian decode fuel input = .ok read) :
    ∀ frame ∈ read.frames, decode frame.1 (BitVec.ofNat 32 frame.1.length) = .ok frame.2 := by
  induction fuel generalizing input read with
  | zero => cases h
  | succ fuel ih =>
    rcases readLoop_cases h with rfl |
      ⟨frame, obj, later, henough, hpos, hframe, hobj, hlater, rfl⟩
    · simp
    · have hle := (le_of_serverEnough henough hpos).1
      have hlen : BitVec.ofNat 32 frame.length = lengthWord endian input := by
        rw [hframe, List.length_take, Nat.min_eq_left hle]
        simp
      refine List.forall_mem_cons.2 ⟨?_, ih hlater⟩
      rw [hlen]
      exact hobj

/-- With `2 ^ 31` bytes or more in the input, the server leaves as many. -/
theorem serverLoop_of_large (hlarge : 2 ^ 31 ≤ input.length)
    (h : serverLoop endian decode fuel input = .ok read) : 2 ^ 31 ≤ read.rest.length := by
  induction fuel generalizing input read with
  | zero => cases h
  | succ fuel ih =>
    rcases readLoop_cases h with rfl |
      ⟨frame, obj, later, henough, hpos, hframe, _, hlater, rfl⟩
    · exact hlarge
    · -- the number of bytes wraps around to a positive `int`, so it is at least `2 ^ 32`
      obtain ⟨hle, hwrap⟩ := le_of_serverEnough henough hpos
      have hlen := toInt_eq_toNat hpos
      have hbound := (lengthWord endian input).toInt_lt
      show 2 ^ 31 ≤ later.rest.length
      refine ih ?_ hlater
      rw [List.length_drop, hframe, List.length_take, Nat.min_eq_left hle]
      omega

end Loops

/-! ## Objects that are sent -/

/-- An object that is sent, at a time of day. Its string ends inside its array. -/
structure Sent where
  obj : Obj
  tvSec : BitVec 64
  tvUsec : BitVec 64
  terminated : obj.Terminated

/-- The frame of an object. -/
def Sent.frame (endian : Endian) (s : Sent) : List UInt8 :=
  (encodeMsg endian s.tvSec s.tvUsec s.obj).1

/-- The stream of the frames of some objects. -/
def stream (endian : Endian) (sent : List Sent) : List UInt8 :=
  (sent.map (·.frame endian)).flatten

/-- A `Bar` whose string has twelve characters or more. The memory that `decodeMsg` allocates for
a shorter one ends before the id of the record. -/
def Obj.Roomy : Obj → Prop
  | .foo _ => True
  | .bar b => 12 ≤ b.buf.text.length
  | .tr _ => True

section Frames

variable (endian : Endian) (s : Sent)

theorem Sent.length_frame :
    (s.frame endian).length = (encodeBody endian s.obj).1 ∧ 24 ≤ (s.frame endian).length ∧
      (s.frame endian).length ≤ 59 := by
  have hlen := length_encodeMsg endian s.tvSec s.tvUsec s.terminated
  have hbody := encodeBody_length endian s.terminated
  unfold headSize at hbody
  refine ⟨hlen, ?_, ?_⟩
  · rw [Sent.frame, hlen]
    omega
  · rw [Sent.frame, hlen]
    omega

theorem Sent.size_field :
    get32 endian (s.frame endian) 0 = .ok (BitVec.ofNat 32 (s.frame endian).length) := by
  rw [(s.length_frame endian).1]
  exact (decodeMsg_head endian emptyBuf s.obj s.terminated s.tvSec s.tvUsec
    (atLeast_encodeBody endian s.terminated) rfl).2

theorem Sent.type_field : get32 endian (s.frame endian) 4 = .ok s.obj.type :=
  get32_put32 endian _ (length_put32 endian _) s.obj.type

theorem Sent.verdict_frame :
    frameVerdict endian (s.frame endian) = .take (s.frame endian).length := by
  obtain ⟨_, hge, hle⟩ := s.length_frame endian
  have hword : lengthWord endian (s.frame endian) = BitVec.ofNat 32 (s.frame endian).length := by
    have hfield := s.size_field endian
    rw [get32_lengthWord (by omega)] at hfield
    exact Except.ok.inj hfield
  have hnat : (lengthWord endian (s.frame endian)).toNat = (s.frame endian).length := by
    rw [hword, BitVec.toNat_ofNat]
    omega
  have hpos : 0 < (lengthWord endian (s.frame endian)).toInt := by
    rw [BitVec.toInt_eq_toNat_cond, hnat]
    split <;> omega
  exact frameVerdict_eq_take_iff.2 ⟨by omega, hpos, by omega, hnat.symm⟩

/-- The frame of an object fits exactly if it is not that of a short `Bar`. -/
theorem fits_encodeBody_iff (obj : Obj) :
    ObjectMemory.Fits obj.type (encodeBody endian obj).1 ↔ obj.Roomy := by
  cases obj with
  | foo f => simp [ObjectMemory.Fits, Obj.type, Obj.Roomy, encodeBody, fooEncode_eq, headSize]
  | bar b =>
    simp only [ObjectMemory.Fits, Obj.type, Obj.Roomy, encodeBody, barEncode_eq, headSize]
    simp
    omega
  | tr t => simp [ObjectMemory.Fits, Obj.type, Obj.Roomy, encodeBody, trEncode, headSize]

/-- The decoder of both sides. `junk` is what `malloc` leaves in the memory for a frame. -/
def decoder (junk : List UInt8 → Nat → UInt8) (frame : List UInt8) (len : BitVec 32) :
    Except Fault (Option (List UInt8)) :=
  ObjectMemory.decodeMsg endian frame (junk frame) len

variable (junk : List UInt8 → Nat → UInt8)

theorem Sent.decoder_ok_iff :
    (∃ result, decoder endian junk (s.frame endian) (BitVec.ofNat 32 (s.frame endian).length) =
      .ok result) ↔ s.obj.Roomy := by
  obtain ⟨hlen, hge, hle⟩ := s.length_frame endian
  unfold decoder
  rw [ObjectMemory.decodeMsg_ok_iff (by omega) (fun _ => s.size_field endian)]
  simp only [s.type_field, Except.ok.injEq, forall_eq']
  rw [hlen, fits_encodeBody_iff]
  exact imp_iff_right (hlen ▸ hge)

/-- A frame that is decoded in bounds gives an object of the same value. -/
theorem Sent.decoder_eq (hroomy : s.obj.Roomy) :
    ∃ memory, decoder endian junk (s.frame endian) (BitVec.ofNat 32 (s.frame endian).length) =
      .ok (some memory) ∧ ObjectMemory.valueAt endian memory = s.obj.value := by
  obtain ⟨result, hresult⟩ := (s.decoder_ok_iff endian junk).2 hroomy
  obtain ⟨value, hvalue, hsame⟩ := ObjectMemory.decodeMsg_refines endian emptyBuf hresult
  obtain ⟨⟨obj', hdecode, hobj⟩, _⟩ := decodeMsg_head endian emptyBuf s.obj s.terminated s.tvSec
    s.tvUsec (atLeast_encodeBody endian s.terminated) rfl
  rw [(s.length_frame endian).1] at hvalue
  have hsome : value = some obj' := Except.ok.inj (hvalue.symm.trans hdecode)
  rw [hsome] at hsame
  cases result with
  | none => cases hsame
  | some memory => exact ⟨memory, hresult, (Option.some.inj hsame).trans hobj⟩

end Frames

/-! ## The service -/

section Service

variable (endian : Endian) (junk : List UInt8 → Nat → UInt8)

/-- The server after some chunks: with enough fuel, what is left in its input, and the frames. -/
def Serves (chunks : List (List UInt8)) (read : Read (List UInt8)) : Prop :=
  Ends (fun fuel => feed (serverLoop endian (decoder endian junk) fuel) chunks []) read

/-- The client after some chunks. -/
def Receives (chunks : List (List UInt8)) (read : Read (List UInt8)) : Prop :=
  Ends (fun fuel => feed (clientLoop endian (decoder endian junk) fuel) chunks []) read

/-- The server has echoed the frames of the first objects, each once and in order, and what it has
not echoed is a proper part of the next frame. -/
def Echoed (sent : List Sent) (chunks : List (List UInt8)) : Prop :=
  ∃ done next read, sent = done ++ next ∧ Serves endian junk chunks read ∧
    read.frames.map Prod.fst = done.map (·.frame endian) ∧
    (read.rest = [] ∨ ∃ s more, next = s :: more ∧ read.rest <+: s.frame endian ∧
      read.rest.length < (s.frame endian).length)

/-- The client has decoded the objects, in order and with their values. -/
def Decoded (sent : List Sent) (chunks : List (List UInt8)) : Prop :=
  ∃ read, Receives endian junk chunks read ∧ read.rest = [] ∧
    read.objects.map (ObjectMemory.valueAt endian) = sent.map (·.obj.value)

/-- Some objects, and a cut of their stream into chunks. -/
structure Cut where
  sent : List Sent
  chunks : List (List UInt8)
  flatten_eq : chunks.flatten = stream endian sent

/-- The service: after each chunk the server has echoed the frames that are complete, and the
client decodes the objects from the echo, however it is cut. -/
def Service (cut : Cut endian) : Prop :=
  (∀ before after, cut.chunks = before ++ after → Echoed endian junk cut.sent before) ∧
    ∀ chunks, chunks.flatten = stream endian cut.sent → Decoded endian junk cut.sent chunks

/-- Whenever the callback of the server runs, fewer than `2 ^ 31` bytes are in its input. -/
def Small (cut : Cut endian) : Prop :=
  ∀ before chunk after, cut.chunks = before ++ chunk :: after →
    ∀ read, Serves endian junk before read → read.rest.length + chunk.length < 2 ^ 31

variable {endian junk} {sent : List Sent}

/-- The objects that frames are decoded to. -/
def objOf (endian : Endian) (junk : List UInt8 → Nat → UInt8) (frame : List UInt8) :
    Option (List UInt8) :=
  (decoder endian junk frame (BitVec.ofNat 32 frame.length)).toOption.getD none

/-- The frames of objects without short `Bar`s are decoded. -/
theorem decoder_eq_objOf (junk : List UInt8 → Nat → UInt8) (hroomy : ∀ s ∈ sent, s.obj.Roomy)
    {frame : List UInt8} (hframe : frame ∈ sent.map (·.frame endian)) :
    decoder endian junk frame (BitVec.ofNat 32 frame.length) = .ok (objOf endian junk frame) := by
  obtain ⟨s, hs, rfl⟩ := List.mem_map.1 hframe
  obtain ⟨memory, hdecode, _⟩ := s.decoder_eq endian junk (hroomy s hs)
  rw [objOf, hdecode]
  rfl

theorem drains_stream {before after : List UInt8} (h : before ++ after = stream endian sent) :
    ∃ done next rest, sent = done ++ next ∧
      Drains (frameVerdict endian) before (done.map (·.frame endian)) true rest ∧
      rest ++ after = stream endian next ∧
      (rest = [] ∨ ∃ s more, next = s :: more ∧ rest <+: s.frame endian ∧
        rest.length < (s.frame endian).length) := by
  exact drains_of_flatten frameVerdict_stable frameVerdict_bounded rfl
    (fun s _ => s.verdict_frame endian) h

/-- A callback that compares lengths as they are takes the frames of the objects from the stream,
chunk by chunk, and leaves nothing or a proper part of the next frame. -/
theorem feed_of_stream (junk : List UInt8 → Nat → UInt8) {enough : Nat → BitVec 32 → Bool}
    (hroomy : ∀ s ∈ sent, s.obj.Roomy) {chunks : List (List UInt8)} {after : List UInt8}
    (hcompares : ∀ before chunk more read, chunks = before ++ chunk :: more →
      Ends (fun fuel => feed (readLoop endian enough (decoder endian junk) fuel) before []) read →
      ∃ limit, Compares enough limit ∧ read.rest.length + chunk.length < limit)
    (hstream : chunks.flatten ++ after = stream endian sent) :
    ∃ done next rest, sent = done ++ next ∧
      Ends (fun fuel => feed (readLoop endian enough (decoder endian junk) fuel) chunks [])
        ⟨rest, done.map fun s => (s.frame endian, objOf endian junk (s.frame endian))⟩ ∧
      rest ++ after = stream endian next ∧
      (rest = [] ∨ ∃ s more, next = s :: more ∧ rest <+: s.frame endian ∧
        rest.length < (s.frame endian).length) := by
  -- by the last chunk: what the chunks before it leave is drained together with it
  induction chunks using List.reverseRecOn generalizing after with
  | nil => exact ⟨[], sent, [], rfl, Ends.of_eq fun _ => rfl, hstream, .inl rfl⟩
  | append_singleton before chunk ih =>
    rw [List.flatten_concat, List.append_assoc] at hstream
    obtain ⟨done, next, rest, rfl, hbefore, hnext, _⟩ := ih
      (fun first chunk more read hsplit => hcompares first chunk (more ++ _) read
        (by rw [hsplit, List.append_assoc, List.cons_append])) hstream
    rw [← List.append_assoc] at hnext
    obtain ⟨done', next', rest', rfl, hdrains, hrest', hpart⟩ := drains_stream hnext
    obtain ⟨limit, hlimit, hlen⟩ := hcompares before chunk [] _ rfl hbefore
    have hlast := readLoop_of_drains hlimit (by rwa [List.length_append]) hdrains
      (fun frame hframe => decoder_eq_objOf junk
        (fun s hs => hroomy s (List.mem_append_right _ (List.mem_append_left _ hs))) hframe)
    refine ⟨done ++ done', next', rest', by rw [List.append_assoc], ?_, hrest', hpart⟩
    simp only [feed_snoc]
    refine hbefore.bind (hlast.bind (Ends.of_eq fun _ => ?_))
    simp [pure, Except.pure]

/-- A stream is used up when less than a frame of it is left. -/
theorem next_eq_nil {next : List Sent} {rest : List UInt8} (hrest : rest = stream endian next)
    (hpart : rest = [] ∨ ∃ s more, next = s :: more ∧ rest <+: s.frame endian ∧
      rest.length < (s.frame endian).length) : next = [] := by
  cases next with
  | nil => rfl
  | cons s more =>
    have hlen : rest.length = (s.frame endian).length + (stream endian more).length := by
      rw [hrest, stream, List.map_cons, List.flatten_cons, List.length_append]
      rfl
    have hge := (s.length_frame endian).2.1
    rcases hpart with rfl | ⟨s', more', hnext, _, hlt⟩
    · rw [List.length_nil] at hlen
      omega
    · cases hnext
      omega

/-- The values of the objects that the frames are decoded to. -/
theorem values_objOf (hroomy : ∀ s ∈ sent, s.obj.Roomy) :
    (Read.objects ⟨[], sent.map fun s => (s.frame endian, objOf endian junk (s.frame endian))⟩).map
      (ObjectMemory.valueAt endian) = sent.map (·.obj.value) := by
  rw [Read.objects, List.filterMap_map, List.map_filterMap, ← List.filterMap_eq_map]
  refine List.filterMap_congr fun s hs => ?_
  obtain ⟨memory, hdecode, hvalue⟩ := s.decoder_eq endian junk (hroomy s hs)
  have hobj : objOf endian junk (s.frame endian) = some memory := by
    rw [objOf, hdecode]
    rfl
  simp only [Function.comp_apply, hobj, Option.map_some, hvalue]

/-- The client decodes the objects from their stream, however it is cut. -/
theorem decoded_of_roomy (hroomy : ∀ s ∈ sent, s.obj.Roomy) {chunks : List (List UInt8)}
    (hchunks : chunks.flatten = stream endian sent) : Decoded endian junk sent chunks := by
  rw [← List.append_nil chunks.flatten] at hchunks
  obtain ⟨done, next, rest, rfl, hends, hrest, hpart⟩ := feed_of_stream junk hroomy
    (fun _ _ _ _ _ _ => ⟨_, clientEnough_compares _, Nat.lt_succ_self _⟩) hchunks
  rw [List.append_nil] at hrest
  obtain rfl := next_eq_nil hrest hpart
  obtain rfl : rest = [] := hrest
  rw [List.append_nil] at hroomy ⊢
  exact ⟨_, hends, rfl, values_objOf hroomy⟩

/-- The server echoes the frames that are complete. -/
theorem echoed_of_small {cut : Cut endian} (hroomy : ∀ s ∈ cut.sent, s.obj.Roomy)
    (hsmall : Small endian junk cut) {before after : List (List UInt8)}
    (hsplit : cut.chunks = before ++ after) : Echoed endian junk cut.sent before := by
  have hstream : before.flatten ++ after.flatten = stream endian cut.sent := by
    rw [← List.flatten_append, ← hsplit, cut.flatten_eq]
  have hcompares : ∀ first chunk more read, before = first ++ chunk :: more →
      Serves endian junk first read →
      ∃ limit, Compares serverEnough limit ∧ read.rest.length + chunk.length < limit := by
    intro first chunk more read hfirst hread
    refine ⟨2 ^ 31, serverEnough_compares, hsmall first chunk (more ++ after) ?_ read hread⟩
    rw [hsplit, hfirst, List.append_assoc, List.cons_append]
  obtain ⟨done, next, rest, hsent, hends, _, hpart⟩ := feed_of_stream junk hroomy hcompares hstream
  refine ⟨done, next, _, hsent, hends, ?_, hpart⟩
  rw [List.map_map]
  rfl

/-- A server that echoes every frame has decoded every object in bounds. -/
theorem roomy_of_echoed {cut : Cut endian} (h : Echoed endian junk cut.sent cut.chunks) :
    ∀ s ∈ cut.sent, s.obj.Roomy := by
  obtain ⟨done, next, read, hsent, ⟨bound, hends⟩, hframes, hpart⟩ := h
  have hread := hends bound le_rfl
  have hecho := feed_echo (fun _ _ => readLoop_echo) hread
  -- the frames of the first objects are echoed, so the rest is the stream of the others
  have hrest : read.rest = stream endian next := by
    rw [List.nil_append, cut.flatten_eq, hsent, stream, List.map_append, List.flatten_append,
      Read.echo, hframes, List.append_cancel_left_eq] at hecho
    exact hecho
  obtain rfl := next_eq_nil hrest hpart
  rw [List.append_nil] at hsent
  intro s hs
  have hmem : s.frame endian ∈ read.frames.map Prod.fst := by
    rw [hframes, ← hsent]
    exact List.mem_map_of_mem hs
  obtain ⟨⟨frame, obj⟩, hframe, heq⟩ := List.mem_map.1 hmem
  have hdecoded := feed_forall (fun _ _ => serverLoop_decoded) hread _ hframe
  subst heq
  exact (s.decoder_ok_iff endian junk).1 ⟨obj, hdecoded⟩

/-- A server that echoes every frame that is complete has fewer than `2 ^ 31` bytes in its input
when its callback runs. -/
theorem small_of_echoed {cut : Cut endian}
    (h : ∀ before after, cut.chunks = before ++ after → Echoed endian junk cut.sent before) :
    Small endian junk cut := by
  intro before chunk after hsplit read ⟨bound, hread⟩
  obtain ⟨_, _, read', _, ⟨bound', hread'⟩, _, hpart⟩ := h (before ++ [chunk]) after
    (by rw [hsplit, List.append_assoc, List.singleton_append])
  have hshort : read'.rest.length < 59 := by
    rcases hpart with hnil | ⟨s, _, _, _, hlt⟩
    · rw [hnil]
      decide
    · exact lt_of_lt_of_le hlt (s.length_frame endian).2.2
  by_contra hlarge
  have hboth := hread' (max bound bound') (Nat.le_max_right ..)
  simp only [feed_snoc, hread (max bound bound') (Nat.le_max_left ..), ok_bind] at hboth
  obtain ⟨last, hlast, hboth⟩ := bind_eq_ok.1 hboth
  cases hboth
  have hfew : last.rest.length < 59 := hshort
  have hmany := serverLoop_of_large (by rw [List.length_append]; omega) hlast
  omega

/-- For all objects, every cut of their stream and whatever `malloc` leaves in memory: the server
echoes each frame once, in order and as soon as it is complete, and the client decodes the objects
from the echo, exactly if no `Bar` has a string of fewer than twelve characters and fewer than
`2 ^ 31` bytes are in the input of the server at a time. -/
theorem echo_service_iff (endian : Endian) (junk : List UInt8 → Nat → UInt8) (cut : Cut endian) :
    Service endian junk cut ↔ (∀ s ∈ cut.sent, s.obj.Roomy) ∧ Small endian junk cut := by
  constructor
  · rintro ⟨hechoed, _⟩
    exact ⟨roomy_of_echoed (hechoed _ [] (List.append_nil _).symm), small_of_echoed hechoed⟩
  · rintro ⟨hroomy, hsmall⟩
    exact ⟨fun _ _ hsplit => echoed_of_small hroomy hsmall hsplit,
      fun _ hchunks => decoded_of_roomy hroomy hchunks⟩

theorem terminated_emptyBuf : emptyBuf.Terminated :=
  show strnlen emptyBuf < 32 by decide

/-- A `Bar` with an empty string. -/
def emptyBar : Sent where
  obj := .bar ⟨emptyBuf, 7⟩
  tvSec := 0
  tvUsec := 0
  terminated := terminated_emptyBuf

/-- The server writes out of bounds when it decodes a `Bar` with an empty string, and echoes
nothing. -/
theorem empty_bar_not_echoed :
    [emptyBar.frame .little].flatten = stream .little [emptyBar] ∧
    ∀ fuel, feed (serverLoop .little (decoder .little fun _ _ => 0) (fuel + 1))
      [emptyBar.frame .little] [] = .error .outOfBounds := by
  refine ⟨rfl, fun fuel => ?_⟩
  rfl

end Service

end HakunaMatata.Libevent
