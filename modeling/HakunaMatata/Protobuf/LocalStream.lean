import Mathlib.Data.List.Flatten
import HakunaMatata.Protobuf.Local

/-!
# Decoding the first part of a file

`encode_eq` gives the bytes of an encoded message. A complete frame at the front is decoded and
skipped (`decodeSingle_frame`), and an incomplete one ends the loop without an error
(`decodeSingle_part`). `decode_first_part` is the result for a file that is cut anywhere.
-/

namespace HakunaMatata.Protobuf.Local

open Base Base.Java

/-- The number of bytes of a frame besides the name and the data. -/
def overhead : Nat := 4 + 16 + 4

variable {M D : Type} (runtime : Runtime M D)

/-- The number of bytes of a frame. -/
def frameLen (message : M) : Nat :=
  overhead + length16 (runtime.fullName message) + (runtime.toByteArray message).length

/-- What follows the total length in a frame. -/
def frameTail (message : M) : List UInt8 :=
  versionBytesPrepared (utf8 version) ++ (intBytes (length16 (runtime.fullName message)) ++
    (utf8 (runtime.fullName message) ++ runtime.toByteArray message))

/-- The bytes of a frame. -/
def frame (message : M) : List UInt8 :=
  intBytes (frameLen runtime message) ++ frameTail runtime message

variable {runtime} {decoder : Decoder M D} {message : M}

theorem length_versionBytesPrepared : (versionBytesPrepared (utf8 version)).length = 16 := by
  decide

theorem length_frameTail (hascii : Ascii (runtime.fullName message)) :
    (frameTail runtime message).length + 4 = frameLen runtime message := by
  simp only [frameTail, frameLen, overhead, List.length_append, length_versionBytesPrepared,
    length_intBytes, length_utf8 hascii]
  omega

theorem length_frame (hascii : Ascii (runtime.fullName message)) :
    (frame runtime message).length = frameLen runtime message := by
  have htail := length_frameTail hascii
  rw [frame, List.length_append, length_intBytes]
  omega

theorem encode_eq (hascii : Ascii (runtime.fullName message))
    (hsize : frameLen runtime message < 2 ^ 31) :
    encode runtime message = .ok (frame runtime message) := by
  have hlength := length_frame hascii
  have hint : i32 (4 + 16 + 4 + length16 (runtime.fullName message) +
      (runtime.toByteArray message).length) = frameLen runtime message := by
    unfold frameLen overhead at hsize ⊢
    rw [i32_of_lt (by omega) (by omega)]
    omega
  have hlen : frameLen runtime message = 24 + length16 (runtime.fullName message) +
    (runtime.toByteArray message).length := rfl
  have hversion := length_versionBytesPrepared
  have hutf := length_utf8 hascii
  have htotal := length_intBytes (frameLen runtime message)
  have hname := length_intBytes (length16 (runtime.fullName message))
  unfold encode
  simp only [hint]
  -- each put finds room, and the last one fills the buffer
  rw [ByteBuffer.allocate, if_neg (by omega), ok_bind,
    ByteBuffer.put_eq_ok, ok_bind, ByteBuffer.put_eq_ok, ok_bind, ByteBuffer.put_eq_ok, ok_bind,
    ByteBuffer.put_eq_ok, ok_bind, ByteBuffer.put_eq_ok, ok_bind, ByteBuffer.array_of_full]
  · simp only [frame, frameTail, List.nil_append, List.append_assoc]
    rfl
  all_goals
    simp only [List.length_append, List.length_nil, Int.toNat_natCast]
    omega

theorem decodeSingle_frame (hlawful : Lawful runtime decoder) (hlimits : DefaultLimits decoder)
    (hallowed : Allowed runtime decoder overhead message) (rest : List UInt8) :
    decodeSingle runtime decoder (frame runtime message ++ rest) = .ok (some (message, rest)) := by
  obtain ⟨htotalLimit, hnameLimit⟩ := hlimits
  have hsize : 24 + length16 (runtime.fullName message) +
    (runtime.toByteArray message).length ≤ 4096 := hallowed.size_le
  have hpos := hallowed.name_pos
  have hname := hallowed.name_le
  have hlength := length_frame hallowed.ascii
  have hlong : (frame runtime message ++ rest).length =
      frameLen runtime message + rest.length := by
    rw [List.length_append, hlength]
  have hutf := length_utf8 hallowed.ascii
  have hlen : frameLen runtime message = 24 + length16 (runtime.fullName message) +
    (runtime.toByteArray message).length := rfl
  have hhead : i32 (4 + 16 + 4 + (length16 (runtime.fullName message) : Int)) =
      24 + length16 (runtime.fullName message) := by
    rw [i32_of_lt (by omega) (by omega)]
    omega
  have hdata : i32 ((frameLen runtime message : Int) -
      (24 + length16 (runtime.fullName message))) = (runtime.toByteArray message).length := by
    rw [i32_of_lt (by omega) (by omega)]
    omega
  have hsupported : ∀ bytes, ¬ isSupportedVersion bytes = false := by simp [isSupportedVersion]
  unfold decodeSingle
  simp only [hlong]
  rw [if_neg (by omega)]
  simp only [frame, frameTail, List.append_assoc]
  rw [getInt_append (by omega), ok_bind]
  simp only
  rw [if_neg (by omega), if_neg (by omega), if_neg (by omega),
    get_append (by rw [length_versionBytesPrepared]; rfl), ok_bind, if_neg (hsupported _)]
  simp only
  rw [getInt_append (by omega), ok_bind]
  simp only [hhead, hdata]
  rw [if_neg (by omega), if_neg (by omega), if_neg (by omega), get_append (by omega), ok_bind]
  simp only [hlawful.newString _ hallowed.ascii]
  by_cases hempty : (runtime.toByteArray message).length = 0
  · have hnil := List.length_eq_zero_iff.mp hempty
    rw [if_neg (by omega), if_pos (by omega),
      parse_toByteArray hlawful hallowed.registered (by rw [hnil]; rfl), ok_bind, hnil]
    rfl
  · rw [if_pos (by omega), get_append rfl, ok_bind,
      parse_toByteArray hlawful hallowed.registered rfl, ok_bind]
    rfl

theorem decodeSingle_part (hallowed : Allowed runtime decoder overhead message)
    {part : List UInt8} (hpart : part <+: frame runtime message) (hfour : 4 ≤ part.length)
    (hlt : part.length < (frame runtime message).length) :
    decodeSingle runtime decoder part = .ok none := by
  have hsize : 24 + length16 (runtime.fullName message) +
    (runtime.toByteArray message).length ≤ 4096 := hallowed.size_le
  have hlen : frameLen runtime message = 24 + length16 (runtime.fullName message) +
    (runtime.toByteArray message).length := rfl
  have hlength := length_frame hallowed.ascii
  obtain ⟨front, rfl⟩ : intBytes (frameLen runtime message) <+: part :=
    List.prefix_of_prefix_length_le (List.prefix_append _ _) hpart (by rwa [length_intBytes])
  unfold decodeSingle
  rw [if_neg (by omega), getInt_append (by omega), ok_bind]
  simp only
  rw [if_pos (by omega)]
  rfl

/-- The number of frames that lie completely inside the first `count` bytes. -/
def wholeFrames : Nat → List (List UInt8) → Nat
  | _, [] => 0
  | count, bytes :: frames =>
    if bytes.length ≤ count then wholeFrames (count - bytes.length) frames + 1 else 0

theorem wholeFrames_flatten (frames : List (List UInt8)) :
    wholeFrames frames.flatten.length frames = frames.length := by
  induction frames with
  | nil => rfl
  | cons bytes frames ih =>
    rw [List.flatten_cons, List.length_append, wholeFrames, if_pos (Nat.le_add_right _ _),
      Nat.add_sub_cancel_left, ih, List.length_cons]

/-- The first part of a sequence of frames is decoded to the messages whose frames are complete. The
induction is on the messages: a complete frame is decoded, and an incomplete one ends the loop. -/
theorem decode_part (hlawful : Lawful runtime decoder) (hlimits : DefaultLimits decoder)
    (messages : List M) (hallowed : ∀ m ∈ messages, Allowed runtime decoder overhead m)
    {bytes : List UInt8} (hpart : bytes <+: (messages.map (frame runtime)).flatten) {fuel : Nat}
    (hfuel : bytes.length < fuel) :
    decode runtime decoder fuel bytes =
      .ok (messages.take (wholeFrames bytes.length (messages.map (frame runtime)))) := by
  obtain ⟨fuel, rfl⟩ : ∃ n, fuel = n + 1 := ⟨fuel - 1, by omega⟩
  induction messages generalizing bytes fuel with
  | nil =>
    obtain rfl := List.prefix_nil.mp hpart
    rfl
  | cons message messages ih =>
    have hfirst := hallowed message List.mem_cons_self
    have hlength := length_frame hfirst.ascii
    have hfour : 4 ≤ frameLen runtime message := by
      unfold frameLen overhead
      omega
    rw [List.map_cons, List.flatten_cons] at hpart
    rw [List.map_cons, wholeFrames, decode]
    rcases Nat.lt_or_ge bytes.length (frame runtime message).length with hlt | hge
    · rw [if_neg (Nat.not_le.mpr hlt), List.take_zero]
      have hprefix := List.prefix_of_prefix_length_le hpart (List.prefix_append _ _)
        (Nat.le_of_lt hlt)
      by_cases hshort : bytes.length < 4
      · rw [if_pos hshort]
      · rw [if_neg hshort, decodeSingle_part hfirst hprefix (by omega) hlt, ok_bind]
        rfl
    · obtain ⟨rest, rfl⟩ := List.prefix_of_prefix_length_le (List.prefix_append _ _) hpart hge
      rw [List.length_append] at hfuel hge ⊢
      obtain ⟨fuel, rfl⟩ : ∃ n, fuel = n + 1 := ⟨fuel - 1, by omega⟩
      have hrest := ih (fun m hm => hallowed m (List.mem_cons_of_mem _ hm))
        ((List.prefix_append_right_inj _).mp hpart) fuel (by omega)
      rw [if_neg (by omega), decodeSingle_frame hlawful hlimits hfirst, ok_bind,
        Option.elim_some, hrest, ok_bind, if_pos hge, Nat.add_sub_cancel_left]
      rfl

/-- For allowed messages, the encoder writes a frame each, and decoding the bytes of the frames,
cut anywhere, throws nothing and returns exactly the messages whose frames are complete, in
order. -/
theorem decode_first_part (hlawful : Lawful runtime decoder) (hlimits : DefaultLimits decoder)
    (messages : List M) (hallowed : ∀ m ∈ messages, Allowed runtime decoder overhead m) :
    ∃ frames, messages.mapM (encode runtime) = .ok frames ∧
      ∀ bytes, bytes <+: frames.flatten → ∀ fuel, bytes.length < fuel →
        decode runtime decoder fuel bytes =
          .ok (messages.take (wholeFrames bytes.length frames)) := by
  refine ⟨messages.map (frame runtime), ?_, ?_⟩
  · refine mapM_eq_ok fun message hmessage => encode_eq (hallowed message hmessage).ascii ?_
    have hsize : frameLen runtime message ≤ 4096 := (hallowed message hmessage).size_le
    omega
  · intro bytes hpart fuel hfuel
    exact decode_part hlawful hlimits messages hallowed hpart hfuel

/-- Two messages, the second one without data, in a file of which the last byte is missing. -/
theorem decode_first_part_two :
    decode plainRuntime (plainDecoder "Foo") 56
      (([⟨"Foo", [8, 1]⟩, ⟨"Foo", []⟩].map (frame plainRuntime)).flatten.take 55) =
        .ok [⟨"Foo", [8, 1]⟩] := by
  have hallowed : ∀ m ∈ [Plain.mk "Foo" [8, 1], Plain.mk "Foo" []],
      Allowed plainRuntime (plainDecoder "Foo") overhead m := by
    intro m hm
    simp only [List.mem_cons, List.not_mem_nil, or_false] at hm
    rcases hm with rfl | rfl <;> apply plainDecoder_allowed <;> decide
  obtain ⟨frames, hencode, hdecode⟩ :=
    decode_first_part (plainDecoder_lawful "Foo") ⟨rfl, rfl⟩ _ hallowed
  have hframes : frames = [⟨"Foo", [8, 1]⟩, ⟨"Foo", []⟩].map (frame plainRuntime) := by
    refine Except.ok.inj (hencode.symm.trans (mapM_eq_ok fun m hm => ?_))
    have hsize : frameLen plainRuntime m ≤ 4096 := (hallowed m hm).size_le
    exact encode_eq (hallowed m hm).ascii (by omega)
  subst hframes
  exact hdecode _ (List.take_prefix _ _) 56 (by decide)

end HakunaMatata.Protobuf.Local
