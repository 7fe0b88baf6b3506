import Mathlib.Data.List.Forall2
import Mathlib.Data.List.TakeWhile
import HakunaMatata.Base.Framing
import HakunaMatata.Protobuf.Cpp
import HakunaMatata.Protobuf.LocalStream

/-!
# One file format for C++ and Java

Both encoders write the same frame for a message that both sides know (`serialize_eq`), although
one stores through a pointer and the other fills a buffer. The C++ reader walks over a file by
the lengths of the frames (`readLoop_frames`). `file_format_agrees` says that either side reads what
either side wrote.
-/

namespace HakunaMatata.Protobuf

open Base Base.Java

variable {M D T : Type} {java : Runtime M D} {cpp : Cpp.Runtime M T} {decoder : Decoder M D}
  {message : M}

/-- Both runtimes know the message: its name, which has no NUL as it consists of identifiers, its
serialized data, and its type, whose parser gives the message back. -/
structure Shared (java : Runtime M D) (cpp : Cpp.Runtime M T) (message : M) : Prop where
  fullName : cpp.fullName message = utf8 (java.fullName message)
  identifiers : 0 ∉ utf8 (java.fullName message)
  byteSizeLong : cpp.byteSizeLong message = (java.toByteArray message).length
  serializeToArray : cpp.serializeToArray message = some (java.toByteArray message)
  known : ∃ desc, cpp.findMessageTypeByName (utf8 (java.fullName message)) = some desc ∧
    cpp.parseFromArray desc (java.toByteArray message) = some message

theorem strncpy_version :
    Cpp.strncpy Cpp.version 15 ++ [0] = Local.versionBytesPrepared (utf8 Local.version) := by
  decide

/-- The text of the version is copied over a field that was cleared. -/
theorem store_version {front : List UInt8} (hfront : front.length = 4) (tail : List UInt8) :
    storeAt (front ++ List.replicate 16 0 ++ tail) 4 (Cpp.strncpy Cpp.version 15) =
      .ok (front ++ Local.versionBytesPrepared (utf8 Local.version) ++ tail) := by
  rw [List.append_assoc, storeAt_append hfront, ← strncpy_version]
  · simp only [List.append_assoc]
    rfl
  · simp [Cpp.strncpy, Cpp.version]

theorem serialize_eq (hascii : Ascii (java.fullName message)) (hshared : Shared java cpp message)
    (hsize : Local.frameLen java message < 2 ^ 31) (junk : Nat → UInt8) :
    Cpp.serialize cpp junk message =
      .ok (some (Local.frame java message), Local.frameLen java message) := by
  have hutf := length_utf8 hascii
  have hlen : Local.frameLen java message = 24 + (utf8 (java.fullName message)).length +
      (java.toByteArray message).length := by
    rw [hutf]
    rfl
  have htotal : i32 (4 + 16 + 4 + (utf8 (java.fullName message)).length +
      (java.toByteArray message).length) = Local.frameLen java message := by
    rw [i32_of_lt (by omega) (by omega)]
    omega
  have hname : i32 (utf8 (java.fullName message)).length =
      length16 (java.fullName message) := by
    rw [i32_of_lt (by omega) (by omega), hutf]
  have hmem : (uninit junk (Local.frameLen java message)).length = Local.frameLen java message :=
    length_uninit _ _
  unfold Cpp.serialize
  simp only [hshared.fullName, hshared.byteSizeLong, hshared.serializeToArray, htotal, hname,
    Int.toNat_natCast, Option.elim_some]
  generalize uninit junk (Local.frameLen java message) = memory at hmem ⊢
  have hversion := Local.length_versionBytesPrepared
  have hword : ∀ n, (intBytes n).length = 4 := length_intBytes
  -- each store continues where the one before ended, and the last one fills the memory
  rw [← List.nil_append memory, storeAt_append List.length_nil (by rw [hword]; omega), ok_bind,
    storeAt_append, ok_bind, store_version, ok_bind, storeAt_append, ok_bind, storeAt_append,
    ok_bind, storeAt_append, ok_bind]
  · simp only [List.drop_drop, List.nil_append, List.length_replicate, hword]
    rw [List.drop_of_length_le (by omega), List.append_nil, Local.frame, Local.frameTail]
    simp only [List.append_assoc]
    rfl
  all_goals simp only [List.length_append, List.length_drop, List.length_replicate,
    List.length_nil, hword, hversion]
  all_goals omega

theorem cString_eq {name : List UInt8} (h : 0 ∉ name) : Cpp.cString name = name := by
  refine List.takeWhile_eq_self_iff.mpr fun b hb => decide_eq_true ?_
  rintro rfl
  exact h hb

theorem ntohl_append {front : List UInt8} {offset n : Nat} (hfront : front.length = offset)
    (hn : n < 2 ^ 31) (rest : List UInt8) :
    Cpp.ntohl (front ++ (intBytes n ++ rest)) offset = .ok n := by
  rw [Cpp.ntohl, bytesAt_append hfront (length_intBytes _), ok_bind, intOf_intBytes hn]
  rfl

theorem deserialize_frame (hallowed : Allowed java decoder Local.overhead message)
    (hshared : Shared java cpp message) (rest : List UInt8) :
    Cpp.deserialize cpp (Local.frame java message ++ rest) =
      .ok ⟨some message, Local.frameLen java message⟩ := by
  have hutf := length_utf8 hallowed.ascii
  have hversion := Local.length_versionBytesPrepared
  have hpos := hallowed.name_pos
  have hname := hallowed.name_le
  have hsize : Local.frameLen java message ≤ 4096 := hallowed.size_le
  have hlen : Local.frameLen java message = 24 + length16 (java.fullName message) +
    (java.toByteArray message).length := rfl
  obtain ⟨desc, hdesc, hparse⟩ := hshared.known
  have hdata : i32 ((Local.frameLen java message : Int) - 4 - 16 - 4 -
      length16 (java.fullName message)) = (java.toByteArray message).length := by
    rw [i32_of_lt (by omega) (by omega)]
    omega
  generalize hbytes : Local.frame java message ++ rest = bytes
  simp only [Local.frame, Local.frameTail, List.append_assoc] at hbytes
  generalize Local.versionBytesPrepared (utf8 Local.version) = versionField at hbytes hversion
  have htotal : Cpp.ntohl bytes 0 = .ok (Local.frameLen java message : Int) := by
    rw [← hbytes]
    exact ntohl_append List.length_nil (by omega) _
  have hskipped : bytesAt bytes 4 15 = .ok ((bytes.drop 4).take 15) := by
    refine bytesAt_of_le ?_
    rw [← hbytes]
    simp only [List.length_append, length_intBytes, hversion]
    omega
  have hnameLen : Cpp.ntohl bytes 20 = .ok (length16 (java.fullName message) : Int) := by
    rw [← hbytes, ← List.append_assoc]
    exact ntohl_append (by rw [List.length_append, length_intBytes, hversion]) (by omega) _
  have hnameBytes : bytesAt bytes 24 (length16 (java.fullName message)) =
      .ok (utf8 (java.fullName message)) := by
    rw [← hbytes, ← List.append_assoc, ← List.append_assoc]
    exact bytesAt_append (by simp only [List.length_append, length_intBytes, hversion]) hutf _
  have hdataBytes : bytesAt bytes (24 + length16 (java.fullName message))
      (java.toByteArray message).length = .ok (java.toByteArray message) := by
    rw [← hbytes, ← List.append_assoc, ← List.append_assoc, ← List.append_assoc]
    exact bytesAt_append (by simp only [List.length_append, length_intBytes, hversion, hutf]) rfl _
  have hinside : ¬ ((length16 (java.fullName message) : Int) ≤ 0 ∨
      (length16 (java.fullName message) : Int) ≥ Cpp.limitNameLen) := by
    unfold Cpp.limitNameLen
    omega
  rw [Cpp.deserialize, htotal, ok_bind, hskipped, ok_bind, hnameLen, ok_bind, if_neg hinside,
    Int.toNat_natCast, hnameBytes, ok_bind, cString_eq hshared.identifiers, hdesc,
    Option.elim_some]
  simp only [hdata, Cpp.dataAt]
  rw [if_neg (by omega), Int.toNat_natCast, hdataBytes, ok_bind, hparse]
  rfl

/-- From the beginning of a frame on, the loop delivers the messages of the frames up to the end of
the file. -/
theorem readLoop_frames (messages : List M) (hne : messages ≠ [])
    (hallowed : ∀ m ∈ messages, Allowed java decoder Local.overhead m)
    (hshared : ∀ m ∈ messages, Shared java cpp m) (front : List UInt8) {bytes : List UInt8}
    (hbytes : bytes = front ++ (messages.map (Local.frame java)).flatten)
    (hsize : bytes.length < 2 ^ 31) {fuel : Nat} (hfuel : messages.length ≤ fuel) :
    Cpp.readLoop cpp bytes fuel front.length = .ok messages := by
  induction messages generalizing front fuel with
  | nil => exact absurd rfl hne
  | cons message messages ih =>
    rw [List.length_cons] at hfuel
    obtain ⟨fuel, rfl⟩ : ∃ n, fuel = n + 1 := ⟨fuel - 1, by omega⟩
    rw [List.map_cons, List.flatten_cons, ← List.append_assoc] at hbytes
    have hfirst := hallowed message List.mem_cons_self
    have hlength := Local.length_frame hfirst.ascii
    have hparse : Cpp.parse cpp bytes front.length =
        .ok ([message], (Local.frameLen java message : Int)) := by
      rw [Cpp.parse, if_neg (by omega), Int.toNat_natCast, hbytes, List.append_assoc,
        List.drop_left, deserialize_frame hfirst (hshared message List.mem_cons_self), ok_bind]
      rfl
    have hnext : ((front ++ Local.frame java message).length : Int) =
        front.length + Local.frameLen java message := by
      rw [List.length_append, hlength]
      omega
    have hinside : (front ++ Local.frame java message).length ≤ bytes.length := by
      rw [hbytes]
      simp
    have haccum : i32 ((front.length : Int) + Local.frameLen java message) =
        (front ++ Local.frame java message).length := by
      rw [hnext, i32_of_lt (by omega) (by omega)]
    rw [Cpp.readLoop, hparse, ok_bind]
    simp only [haccum]
    cases messages with
    | nil =>
      rw [List.map_nil, List.flatten_nil, List.append_nil] at hbytes
      rw [hbytes, if_pos (Int.le_refl _)]
      rfl
    | cons second messages =>
      have hrest := ih (List.cons_ne_nil _ _)
        (fun m hm => hallowed m (List.mem_cons_of_mem _ hm))
        (fun m hm => hshared m (List.mem_cons_of_mem _ hm))
        (front ++ Local.frame java message) hbytes (Nat.le_of_succ_le_succ hfuel)
      have hmore : (front ++ Local.frame java message).length < bytes.length := by
        have hsecond := Local.length_frame (hallowed second (by simp)).ascii
        unfold Local.frameLen Local.overhead at hsecond
        have htotal := congrArg List.length hbytes
        rw [List.length_append, List.map_cons, List.flatten_cons] at htotal
        have htail : (Local.frame java second).length ≤
            (Local.frame java second ++ (messages.map (Local.frame java)).flatten).length := by
          simp
        omega
      rw [if_neg (by omega), hrest, ok_bind]
      rfl

/-- The bytes were written for the message by one of the two encoders. -/
def Written (java : Runtime M D) (cpp : Cpp.Runtime M T) (message : M) (bytes : List UInt8) :
    Prop :=
  Local.encode java message = .ok bytes ∨
    ∃ junk len, Cpp.serialize cpp junk message = .ok (some bytes, len)

theorem written_eq_frame (hallowed : Allowed java decoder Local.overhead message)
    (hshared : Shared java cpp message) {bytes : List UInt8}
    (hwritten : Written java cpp message bytes) : bytes = Local.frame java message := by
  have hsize : Local.frameLen java message ≤ 4096 := hallowed.size_le
  rcases hwritten with hencode | ⟨junk, len, hserialize⟩
  · rw [Local.encode_eq hallowed.ascii (by omega)] at hencode
    exact (Except.ok.inj hencode).symm
  · rw [serialize_eq hallowed.ascii hshared (by omega) junk] at hserialize
    exact (Option.some.inj (Prod.mk.inj (Except.ok.inj hserialize)).1).symm

/-- A file that either side wrote, frame by frame, is the sequence of the frames. -/
theorem frames_of_written {messages : List M} {frames : List (List UInt8)}
    (hmessages : ∀ m ∈ messages, Allowed java decoder Local.overhead m ∧ Shared java cpp m)
    (hwritten : List.Forall₂ (Written java cpp) messages frames) :
    frames = messages.map (Local.frame java) := by
  induction hwritten with
  | nil => rfl
  | cons hfirst _ ih =>
    obtain ⟨hallowed, hshared⟩ := hmessages _ List.mem_cons_self
    rw [List.map_cons, written_eq_frame hallowed hshared hfirst,
      ih fun m hm => hmessages m (List.mem_cons_of_mem _ hm)]

/-- For messages that both sides know, both encoders write the same bytes. A file of less than
`2 ^ 31` bytes that is written frame by frame, each by either side, is read to its end by both
decoders, which deliver the same messages in the same order. -/
theorem file_format_agrees (hlawful : Lawful java decoder) (hlimits : DefaultLimits decoder) :
    (∀ message, Allowed java decoder Local.overhead message → Shared java cpp message →
      ∀ junk, ∃ bytes, Local.encode java message = .ok bytes ∧
        Cpp.serialize cpp junk message = .ok (some bytes, bytes.length)) ∧
    (∀ messages frames, messages ≠ [] →
      (∀ m ∈ messages, Allowed java decoder Local.overhead m ∧ Shared java cpp m) →
      List.Forall₂ (Written java cpp) messages frames → frames.flatten.length < 2 ^ 31 →
      ∀ fuel, frames.flatten.length < fuel →
        Local.decode java decoder fuel frames.flatten = .ok messages ∧
        Cpp.readSample cpp fuel frames.flatten = .ok messages) := by
  constructor
  · intro message hallowed hshared junk
    have hsize : Local.frameLen java message ≤ 4096 := hallowed.size_le
    refine ⟨Local.frame java message, Local.encode_eq hallowed.ascii (by omega), ?_⟩
    rw [serialize_eq hallowed.ascii hshared (by omega) junk, Local.length_frame hallowed.ascii]
  · intro messages frames hne hmessages hwritten hsize fuel hfuel
    obtain rfl := frames_of_written hmessages hwritten
    have hallowed : ∀ m ∈ messages, Allowed java decoder Local.overhead m :=
      fun m hm => (hmessages m hm).1
    constructor
    · rw [Local.decode_part hlawful hlimits messages hallowed (List.prefix_rfl) hfuel,
        Local.wholeFrames_flatten, List.length_map, List.take_length]
    · have hcount : messages.length ≤ fuel := by
        have hframes : ∀ bytes ∈ messages.map (Local.frame java), 0 < bytes.length := by
          intro bytes hbytes
          obtain ⟨m, hm, rfl⟩ := List.mem_map.mp hbytes
          rw [Local.length_frame (hallowed m hm).ascii, Local.frameLen, Local.overhead]
          omega
        have hle := length_le_flatten hframes
        rw [List.length_map] at hle
        omega
      exact readLoop_frames messages hne hallowed (fun m hm => (hmessages m hm).2) [] rfl hsize
        hcount

/-- The C++ side of messages that are a name and bytes, where every name is known. -/
def plainCppRuntime : Cpp.Runtime Plain String where
  fullName message := utf8 message.name
  byteSizeLong message := message.data.length
  serializeToArray message := some message.data
  findMessageTypeByName name := some (plainRuntime.newString name)
  parseFromArray name data := some ⟨name, data⟩

/-- A file with two messages, the second one without data. -/
theorem file_format_agrees_two :
    ∃ frames : List (List UInt8), frames.flatten.length = 56 ∧
      Local.decode plainRuntime (plainDecoder "Foo") 57 frames.flatten =
        .ok [⟨"Foo", [8, 1]⟩, ⟨"Foo", []⟩] ∧
      Cpp.readSample plainCppRuntime 57 frames.flatten =
        .ok [⟨"Foo", [8, 1]⟩, ⟨"Foo", []⟩] := by
  have hknown : ∀ data : List UInt8, data.length ≤ 2 →
      Allowed plainRuntime (plainDecoder "Foo") Local.overhead ⟨"Foo", data⟩ ∧
        Shared plainRuntime plainCppRuntime ⟨"Foo", data⟩ := by
    intro data hdata
    have hsize : 27 + data.length ≤ 4096 := by omega
    have hname := (plainDecoder_lawful "Foo").newString "Foo" (by decide)
    have hidentifier : 0 ∉ utf8 "Foo" := by decide
    exact ⟨plainDecoder_allowed (by decide) (by decide) (by decide) hsize, rfl, hidentifier, rfl,
      rfl, "Foo", congrArg some hname, rfl⟩
  obtain ⟨hencoders, hreaders⟩ := @file_format_agrees _ _ _ plainRuntime plainCppRuntime
    (plainDecoder "Foo") (plainDecoder_lawful "Foo") ⟨rfl, rfl⟩
  obtain ⟨hallowed₁, hshared₁⟩ := hknown [8, 1] (by decide)
  obtain ⟨hallowed₂, hshared₂⟩ := hknown [] (by decide)
  obtain ⟨first, hfirst, _⟩ := hencoders _ hallowed₁ hshared₁ fun _ => 0
  obtain ⟨second, hsecond, _⟩ := hencoders _ hallowed₂ hshared₂ fun _ => 0
  have hlength : [first, second].flatten.length = 56 := by
    rw [written_eq_frame hallowed₁ hshared₁ (.inl hfirst),
      written_eq_frame hallowed₂ hshared₂ (.inl hsecond)]
    decide
  refine ⟨[first, second], hlength, ?_⟩
  exact hreaders [⟨"Foo", [8, 1]⟩, ⟨"Foo", []⟩] [first, second] (List.cons_ne_nil _ _)
    (by simp [hallowed₁, hshared₁, hallowed₂, hshared₂])
    (.cons (.inl hfirst) (.cons (.inl hsecond) .nil)) (by omega) 57 (by omega)

end HakunaMatata.Protobuf
