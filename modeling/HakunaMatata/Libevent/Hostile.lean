import HakunaMatata.Libevent.ObjectMemory

/-!
# Which frames the decoder handles inside its memory

The read callbacks cut a frame off the input at the length that the peer wrote in front of it and
pass it to `decodeMsg`. The decoder allocates as many bytes as the frame has, whatever the record
of its type needs, and it accepts one type too many. Read `Fits` first: it lists the frames that
are handled inside the frame, the table and the allocated memory. `decode_in_bounds_iff` proves
that these are all.
-/

namespace HakunaMatata.Libevent.ObjectMemory

open Base

/-- What a read callback passes to the decoder: the first `len` bytes of its input, where `len` is
the number in network order at the front. -/
def IsFrame (endian : Endian) (frame : List UInt8) : Prop :=
  ∃ input len, get32 endian input 0 = .ok len ∧ 0 ≤ len.toInt ∧ len.toInt ≤ input.length ∧
    frame = input.take len.toNat

/-- A frame with a head, of this type and length, is handled inside its bounds. A `Foo` must have
its id. A `Bar` is returned unread if it has no id, and otherwise its memory must reach to the end
of the record. A `TimeRecord` must have both numbers. The table has no entry for the type 3, which
passes the check; all other types are refused. -/
def Fits (type : BitVec 32) (len : Nat) : Prop :=
  (type = 0 → 28 ≤ len) ∧ (type = 1 → len < 28 ∨ 40 ≤ len) ∧ (type = 2 → 40 ≤ len) ∧ type ≠ 3

instance (type : BitVec 32) (len : Nat) : Decidable (Fits type len) :=
  inferInstanceAs (Decidable (_ ∧ _))

section Accesses

variable (endian : Endian) {bytes obj : List UInt8} {offset : Nat}

theorem get32_ok_iff : (∃ v, get32 endian bytes offset = .ok v) ↔ offset + 4 ≤ bytes.length := by
  simp [get32, bind_eq_ok, bytesAt_eq_ok_iff, pure, Except.pure]

theorem get64_ok_iff : (∃ v, get64 endian bytes offset = .ok v) ↔ offset + 8 ≤ bytes.length := by
  simp [get64, bind_eq_ok, bytesAt_eq_ok_iff, pure, Except.pure]

theorem putField32_ok_iff (v : BitVec 32) :
    (∃ obj', putField32 endian obj offset v = .ok obj') ↔ offset + 4 ≤ obj.length := by
  simp [putField32, storeAt_eq_ok_iff]

theorem putField64_ok_iff (v : BitVec 64) :
    (∃ obj', putField64 endian obj offset v = .ok obj') ↔ offset + 8 ≤ obj.length := by
  simp [putField64, storeAt_eq_ok_iff]

/-- A string is copied if it lies in the message, and its terminator in the memory. -/
theorem decodeText_ok {target : Nat} {bufLen : BitVec 32}
    (hread : offset + bufLen.toNat ≤ bytes.length)
    (hwrite : target + bufLen.toNat + 1 ≤ obj.length) :
    ∃ obj', decodeText bytes target offset bufLen obj = .ok obj' ∧ obj'.length = obj.length := by
  unfold decodeText
  by_cases hzero : bufLen = 0
  · obtain ⟨obj', hend⟩ : ∃ obj', storeAt obj target [0] = .ok obj' :=
      ⟨_, storeAt_eq_ok_iff.mpr ⟨by simp only [List.length_singleton]; omega, rfl⟩⟩
    exact ⟨obj', by rw [if_pos hzero, hend], length_of_storeAt hend⟩
  · have htext : ((bytes.drop offset).take bufLen.toNat).length = bufLen.toNat := by
      rw [List.length_take, List.length_drop]
      omega
    obtain ⟨copied, hcopy⟩ :
        ∃ copied, storeAt obj target ((bytes.drop offset).take bufLen.toNat) = .ok copied :=
      ⟨_, storeAt_eq_ok_iff.mpr ⟨by omega, rfl⟩⟩
    have hlength := length_of_storeAt hcopy
    obtain ⟨obj', hend⟩ : ∃ obj', storeAt copied (target + bufLen.toNat) [0] = .ok obj' :=
      ⟨_, storeAt_eq_ok_iff.mpr ⟨by simp only [List.length_singleton]; omega, rfl⟩⟩
    refine ⟨obj', ?_, by rw [length_of_storeAt hend, hlength]⟩
    rw [if_neg hzero, bytesAt_of_le hread]
    simp only [bind, Except.bind, hcopy, hend]

end Accesses

section Bodies

variable (endian : Endian) {frame obj : List UInt8}

/-- Without room for an integer behind the head, the length of the string becomes negative and is
refused as a huge one. -/
theorem atLeast_of_lt {n : Nat} (hge : headSize ≤ n) (hlt : n < 28) :
    atLeast (BitVec.ofNat 32 n - BitVec.ofNat 32 headSize - 4) 32 := by
  unfold headSize at hge ⊢
  interval_cases n <;> decide

/-- The length of the string, for a frame with room for an integer behind the head. -/
theorem bufLen_of_le {n : Nat} (hge : 28 ≤ n) :
    BitVec.ofNat 32 n - BitVec.ofNat 32 headSize - 4 = BitVec.ofNat 32 (n - 28) := by
  have hn : n = headSize + 4 + (n - 28) := by
    unfold headSize
    omega
  rw [← bufLen_eq (n - 28), ← hn]

theorem toNat_bufLen {n : Nat} (hlt : n < 2 ^ 31) : (BitVec.ofNat 32 (n - 28)).toNat = n - 28 := by
  rw [BitVec.toNat_ofNat]
  omega

variable (hobj : obj.length = frame.length) (hge : headSize ≤ frame.length)
  (hlt : frame.length < 2 ^ 31)
include hobj hge hlt

omit hge in
/-- A `Foo` is decoded in bounds exactly if the frame has an id. -/
theorem fooDecode_ok_iff :
    (∃ result, fooDecode endian frame (BitVec.ofNat 32 frame.length) obj = .ok result) ↔
      28 ≤ frame.length := by
  constructor
  · rintro ⟨result, h⟩
    obtain ⟨fooId, hid, _⟩ := bind_eq_ok.mp h
    exact (get32_ok_iff endian).mp ⟨fooId, hid⟩
  · intro hle
    obtain ⟨fooId, hid⟩ := (get32_ok_iff endian).mpr (show headSize + 4 ≤ frame.length from hle)
    obtain ⟨stored, hstore⟩ := (putField32_ok_iff endian fooId).mpr
      (show fooIdOffset + 4 ≤ obj.length by unfold fooIdOffset; omega)
    have hstored : stored.length = obj.length := length_of_storeAt hstore
    unfold fooDecode
    simp only [hid, hstore, bind, Except.bind, bufLen_of_le hle]
    by_cases hlong : atLeast (BitVec.ofNat 32 (frame.length - 28)) 32
    · exact ⟨none, if_pos hlong⟩
    · obtain ⟨obj', htext, _⟩ : ∃ obj', decodeText frame fooBufOffset (headSize + 4)
          (BitVec.ofNat 32 (frame.length - 28)) stored = .ok obj' ∧
          obj'.length = stored.length := by
        apply decodeText_ok
        · rw [toNat_bufLen hlt]
          unfold headSize
          omega
        · rw [toNat_bufLen hlt]
          unfold fooBufOffset
          omega
      exact ⟨some obj', by rw [if_neg hlong, htext]; rfl⟩

/-- A `Bar` is decoded in bounds exactly if the frame has no id, or the memory holds a whole
record. -/
theorem barDecode_ok_iff :
    (∃ result, barDecode endian frame (BitVec.ofNat 32 frame.length) obj = .ok result) ↔
      frame.length < 28 ∨ 40 ≤ frame.length := by
  unfold barDecode
  by_cases hshort : frame.length < 28
  · simp only [if_pos (atLeast_of_lt hge hshort), hshort, true_or, iff_true]
    exact ⟨none, rfl⟩
  · have hle : 28 ≤ frame.length := Nat.le_of_not_lt hshort
    have hiff : atLeast (BitVec.ofNat 32 (frame.length - 28)) 32 ↔ 32 ≤ frame.length - 28 :=
      atLeast_ofNat (by omega)
    simp only [bufLen_of_le hle]
    by_cases hlong : atLeast (BitVec.ofNat 32 (frame.length - 28)) 32
    · rw [if_pos hlong]
      have hwide := hiff.mp hlong
      exact iff_of_true ⟨none, rfl⟩ (Or.inr (by omega))
    · rw [if_neg hlong]
      have hnarrow := mt hiff.mpr hlong
      obtain ⟨copied, htext, hcopied⟩ : ∃ obj', decodeText frame barBufOffset headSize
          (BitVec.ofNat 32 (frame.length - 28)) obj = .ok obj' ∧ obj'.length = obj.length := by
        apply decodeText_ok
        · rw [toNat_bufLen hlt]
          unfold headSize
          omega
        · rw [toNat_bufLen hlt]
          unfold barBufOffset
          omega
      obtain ⟨barId, hid⟩ := (get32_ok_iff endian).mpr
        (show headSize + (BitVec.ofNat 32 (frame.length - 28)).toNat + 4 ≤ frame.length by
          rw [toNat_bufLen hlt]; unfold headSize; omega)
      -- what remains is the write of the id at the end of the record
      constructor
      · rintro ⟨result, h⟩
        obtain ⟨copied', htext', h⟩ := bind_eq_ok.mp h
        obtain ⟨barId', _, h⟩ := bind_eq_ok.mp h
        obtain ⟨obj', hstore, _⟩ := bind_eq_ok.mp h
        rw [htext] at htext'
        cases htext'
        have hroom := (putField32_ok_iff endian barId').mp ⟨obj', hstore⟩
        unfold barIdOffset at hroom
        omega
      · intro hroom
        obtain ⟨obj', hstore⟩ := (putField32_ok_iff endian barId).mpr
          (show barIdOffset + 4 ≤ copied.length by unfold barIdOffset; omega)
        exact ⟨some obj', by simp only [htext, hid, hstore, bind, Except.bind]; rfl⟩

omit hlt hge in
/-- A `TimeRecord` is decoded in bounds exactly if the frame has both numbers. -/
theorem trDecode_ok_iff (len : BitVec 32) :
    (∃ result, trDecode endian frame len obj = .ok result) ↔ 40 ≤ frame.length := by
  constructor
  · rintro ⟨result, h⟩
    obtain ⟨sec, _, h⟩ := bind_eq_ok.mp h
    obtain ⟨first, _, h⟩ := bind_eq_ok.mp h
    obtain ⟨usec, husec, _⟩ := bind_eq_ok.mp h
    exact (get64_ok_iff endian).mp ⟨usec, husec⟩
  · intro hle
    obtain ⟨sec, hsec⟩ := (get64_ok_iff endian).mpr
      (show headSize + 8 ≤ frame.length by unfold headSize; omega)
    obtain ⟨usec, husec⟩ := (get64_ok_iff endian).mpr
      (show headSize + 8 + 8 ≤ frame.length from hle)
    obtain ⟨first, hfirst⟩ := (putField64_ok_iff endian sec).mpr
      (show trSecOffset + 8 ≤ obj.length by unfold trSecOffset; omega)
    have hlength : first.length = obj.length := length_of_storeAt hfirst
    obtain ⟨obj', hsecond⟩ := (putField64_ok_iff endian usec).mpr
      (show trUsecOffset + 8 ≤ first.length by unfold trUsecOffset; omega)
    exact ⟨some obj', by
      simp only [trDecode, hsec, husec, hfirst, hsecond, bind, Except.bind]; rfl⟩

/-- The table has a decoder for the type that stays in bounds exactly if the frame fits, for the
types that pass the check. -/
theorem decodeBody_ok_iff {type : BitVec 32} (htype : type.toNat ≤ 3) :
    (∃ decode result, load (fnDecode endian frame) type.toNat = .ok decode ∧
      decode (BitVec.ofNat 32 frame.length) obj = .ok result) ↔ Fits type frame.length := by
  have hentry : ∀ fn, load (fnDecode endian frame) type.toNat = .ok fn →
      ((∃ decode result, load (fnDecode endian frame) type.toNat = .ok decode ∧
        decode (BitVec.ofNat 32 frame.length) obj = .ok result) ↔
          ∃ result, fn (BitVec.ofNat 32 frame.length) obj = .ok result) := by
    intro fn hfn
    simp [hfn]
  obtain rfl | rfl | rfl | rfl : type = 0 ∨ type = 1 ∨ type = 2 ∨ type = 3 := by
    have hcases : type.toNat = 0 ∨ type.toNat = 1 ∨ type.toNat = 2 ∨ type.toNat = 3 := by omega
    simpa [← BitVec.toNat_inj] using hcases
  · rw [hentry (fooDecode endian frame) rfl, fooDecode_ok_iff endian hobj hlt]
    simp [Fits]
  · rw [hentry (barDecode endian frame) rfl, barDecode_ok_iff endian hobj hge hlt]
    simp [Fits]
  · rw [hentry (trDecode endian frame) rfl, trDecode_ok_iff endian hobj]
    simp [Fits]
  · simp [Fits, load, fnDecode]

end Bodies

section Frames

variable {endian : Endian} {frame : List UInt8}

/-- A frame with room for a number carries its own length at its front. -/
theorem IsFrame.length_field (hframe : IsFrame endian frame) :
    frame.length < 2 ^ 31 ∧
      (4 ≤ frame.length → get32 endian frame 0 = .ok (BitVec.ofNat 32 frame.length)) := by
  obtain ⟨input, len, hlen, hpos, hle, rfl⟩ := hframe
  have hnat : (len.toNat : Int) = len.toInt := by
    rw [BitVec.toInt_eq_toNat_cond] at hpos ⊢
    split at hpos <;> omega
  have hbound : len.toInt < 2 ^ 31 := by
    simpa using len.toInt_lt
  have hlength : (input.take len.toNat).length = len.toNat := by
    rw [List.length_take]
    omega
  refine ⟨by omega, fun hfour => ?_⟩
  rw [hlength, BitVec.ofNat_toNat, BitVec.setWidth_eq, ← hlen]
  rw [hlength] at hfour
  unfold get32
  rw [bytesAt_of_le (by omega), bytesAt_of_le (by omega), List.drop_zero, List.drop_zero,
    List.take_take, Nat.min_eq_left hfour]

/-- The decoder stays in bounds exactly if the frame is shorter than a head, or fits. Its size
field, if it has one, is its length. -/
theorem decodeMsg_ok_iff (hlt : frame.length < 2 ^ 31)
    (hfield : 4 ≤ frame.length → get32 endian frame 0 = .ok (BitVec.ofNat 32 frame.length))
    (junk : Nat → UInt8) :
    (∃ result, decodeMsg endian frame junk (BitVec.ofNat 32 frame.length) = .ok result) ↔
      (headSize ≤ frame.length →
        ∀ type, get32 endian frame 4 = .ok type → Fits type frame.length) := by
  unfold decodeMsg
  by_cases hge : headSize ≤ frame.length
  · have hroom : 24 ≤ frame.length := hge
    have hsize := hfield (by omega)
    obtain ⟨type, htype⟩ := (get32_ok_iff endian).mpr (show 4 + 4 ≤ frame.length by omega)
    simp only [if_pos ((atLeast_ofNat hlt).mpr hge), hsize, htype, ok_bind, Except.ok.injEq,
      forall_eq', hge, true_imp_iff]
    by_cases hrange : type.toInt < 0 ∨ 3 < type.toInt
    · rw [if_pos hrange]
      refine iff_of_true ⟨none, rfl⟩ ⟨?_, ?_, ?_, ?_⟩ <;> intro h <;> subst h <;> simp at hrange
    · have hindex : type.toNat ≤ 3 := by
        rw [BitVec.toInt_eq_toNat_cond] at hrange
        have hbound := type.isLt
        split at hrange <;> omega
      have hmalloc : (malloc junk (BitVec.ofNat 32 frame.length)).length = frame.length := by
        unfold malloc
        rw [length_uninit, toNat_signExtend_ofNat hlt]
      obtain ⟨obj, hstore⟩ := (putField32_ok_iff endian type).mpr
        (show 0 + 4 ≤ (malloc junk (BitVec.ofNat 32 frame.length)).length by omega)
      obtain ⟨sec, hsec⟩ := (get64_ok_iff endian).mpr (show 8 + 8 ≤ frame.length by omega)
      obtain ⟨usec, husec⟩ := (get64_ok_iff endian).mpr (show 16 + 8 ≤ frame.length by omega)
      have hbody := decodeBody_ok_iff endian ((length_of_storeAt hstore).trans hmalloc) hge hlt
        hindex
      rw [if_neg hrange, ← hbody, hstore, ok_bind]
      constructor
      · rintro ⟨result, h⟩
        obtain ⟨decode, hload, h⟩ := bind_eq_ok.mp h
        obtain ⟨decoded, hdecode, _⟩ := bind_eq_ok.mp h
        exact ⟨decode, decoded, hload, hdecode⟩
      · rintro ⟨decode, decoded, hload, hdecode⟩
        rw [hload, ok_bind, hdecode, ok_bind]
        cases decoded with
        | none => exact ⟨none, rfl⟩
        | some obj' => exact ⟨some obj', by simp only [hsec, husec, ok_bind]; rfl⟩
  · have hnot : ¬ atLeast (BitVec.ofNat 32 frame.length) headSize :=
      mt (atLeast_ofNat hlt).mp hge
    rw [if_neg hnot]
    exact iff_of_true ⟨none, rfl⟩ fun h => absurd h hge

/-- The decoder handles a frame inside the frame, the table and the memory that it allocated
exactly if the frame is shorter than a head, or fits. -/
theorem decode_in_bounds_iff (hframe : IsFrame endian frame) (junk : Nat → UInt8) :
    (∃ result, decodeMsg endian frame junk (BitVec.ofNat 32 frame.length) = .ok result) ↔
      (headSize ≤ frame.length →
        ∀ type, get32 endian frame 4 = .ok type → Fits type frame.length) :=
  decodeMsg_ok_iff hframe.length_field.1 hframe.length_field.2 junk

/-- The frame of a `TimeRecord`, as `encodeMsg` sends it. -/
def trFrame : List UInt8 :=
  (encodeMsg .little 1 2 (.tr ⟨3, 4⟩)).1

/-- A `TimeRecord` with both numbers is decoded in bounds. -/
theorem decode_in_bounds_iff_tr :
    ∃ result, decodeMsg .little trFrame (fun _ => 0) (BitVec.ofNat 32 trFrame.length) =
      .ok result := by
  have hframe : IsFrame .little trFrame :=
    ⟨trFrame, 40, by decide, by decide, by decide, by decide⟩
  refine (decode_in_bounds_iff hframe fun _ => 0).mpr fun _ type htype => ?_
  have hfield : get32 .little trFrame 4 = .ok 2 := by decide
  rw [hfield] at htype
  cases htype
  decide

/-- The frame of a `Bar` with the empty string, as `encodeMsg` sends it. -/
def barFrame : List UInt8 :=
  (encodeMsg .little 0 0 (.bar ⟨emptyBuf, 7⟩)).1

/-- A head with the type 3 and nothing behind it. -/
def typeMaxFrame : List UInt8 :=
  [0, 0, 0, 24, 0, 0, 0, 3, 0, 0, 0, 0, 0, 0, 0, 0, 0, 0, 0, 0, 0, 0, 0, 0]

/-- Two frames are handled out of bounds. The id of a `Bar` with a short string is written behind
the allocated memory, and the type 3 is looked up behind the table. -/
theorem decode_out_of_bounds :
    IsFrame .little barFrame ∧ IsFrame .little typeMaxFrame ∧
    decodeMsg .little barFrame (fun _ => 0) (BitVec.ofNat 32 barFrame.length) =
      .error .outOfBounds ∧
    decodeMsg .little typeMaxFrame (fun _ => 0) (BitVec.ofNat 32 typeMaxFrame.length) =
      .error .outOfBounds := by
  refine ⟨⟨barFrame, 28, ?_, ?_, ?_, ?_⟩, ⟨typeMaxFrame, 24, ?_, ?_, ?_, ?_⟩, ?_, ?_⟩ <;> decide

end Frames

end HakunaMatata.Libevent.ObjectMemory
