import HakunaMatata.Base.Gather
import HakunaMatata.Protobuf.Cpp

/-!
# Reading arbitrary files

The reader takes the lengths of a frame from the file and checks only the length of the name.
`Fits` says that a frame lies inside the file, as far as `Deserialize` looks at it, and `Leads` that
the lengths lead from frame to frame to the end of the file. `readSample_ends_iff` says that the
reader stays inside the file and comes to an end for exactly these files. A file of one byte is
read outside, and a frame of length 0 is read forever.
-/

namespace HakunaMatata.Protobuf.Cpp

open Base Base.Java

section Frames

variable {M T : Type} (runtime : Runtime M T) (rest : List UInt8)

/-- The length field of the frame at the front. -/
def totalLenOf : Int := intOf (rest.take 4)

/-- The length of its name. -/
def nameLenOf : Int := intOf ((rest.drop 20).take 4)

/-- The type of its message, if the name has an allowed length and names one. -/
def typeOf : Option T :=
  if nameLenOf rest ≤ 0 ∨ nameLenOf rest ≥ limitNameLen then none
  else runtime.findMessageTypeByName (cString ((rest.drop 24).take (nameLenOf rest).toNat))

/-- The frame at the front lies inside, as far as it is looked at: the header, a name of an allowed
length, and the data if the name is known. -/
structure Fits : Prop where
  header : 24 ≤ rest.length
  name : 0 < nameLenOf rest → nameLenOf rest < limitNameLen → 24 + nameLenOf rest ≤ rest.length
  data : (typeOf runtime rest).isSome →
    24 + nameLenOf rest ≤ totalLenOf rest ∧ totalLenOf rest ≤ rest.length

/-- The bytes between the end of the name and the end of the frame. -/
def dataOf : List UInt8 :=
  (rest.drop (24 + (nameLenOf rest).toNat)).take (totalLenOf rest - 24 - nameLenOf rest).toNat

/-- The message of the frame. -/
def messageOf : Option M :=
  (typeOf runtime rest).elim none fun desc => runtime.parseFromArray desc (dataOf rest)

variable {runtime rest}

theorem typeOf_eq (h : ¬ (nameLenOf rest ≤ 0 ∨ nameLenOf rest ≥ limitNameLen)) :
    typeOf runtime rest =
      runtime.findMessageTypeByName (cString ((rest.drop 24).take (nameLenOf rest).toNat)) :=
  if_neg h

theorem ntohl_eq_ok_iff {offset : Nat} {n : Int} :
    ntohl rest offset = .ok n ↔
      offset + 4 ≤ rest.length ∧ n = intOf ((rest.drop offset).take 4) := by
  unfold ntohl
  rw [bind_eq_ok]
  constructor
  · rintro ⟨word, hword, hn⟩
    obtain ⟨hle, rfl⟩ := bytesAt_eq_ok_iff.mp hword
    cases hn
    exact ⟨hle, rfl⟩
  · rintro ⟨hle, rfl⟩
    exact ⟨_, bytesAt_of_le hle, rfl⟩

theorem deserialize_of_header (h : 24 ≤ rest.length) :
    deserialize runtime rest =
      if nameLenOf rest ≤ 0 ∨ nameLenOf rest ≥ limitNameLen then .ok ⟨none, totalLenOf rest⟩
      else bytesAt rest 24 (nameLenOf rest).toNat >>= fun name =>
        (runtime.findMessageTypeByName (cString name)).elim (.ok ⟨none, totalLenOf rest⟩)
          fun desc => dataAt rest (24 + (nameLenOf rest).toNat)
            (i32 (totalLenOf rest - 4 - 16 - 4 - nameLenOf rest)) >>= fun data =>
          .ok ⟨runtime.parseFromArray desc data, totalLenOf rest⟩ := by
  have htotal : ntohl rest 0 = .ok (totalLenOf rest) :=
    ntohl_eq_ok_iff.mpr ⟨by omega, by rw [List.drop_zero]; rfl⟩
  have hversion := bytesAt_of_le (show 4 + 15 ≤ rest.length by omega)
  have hname : ntohl rest 20 = .ok (nameLenOf rest) := ntohl_eq_ok_iff.mpr ⟨h, rfl⟩
  rw [deserialize, htotal, ok_bind, hversion, ok_bind, hname, ok_bind]
  rfl

/-- The size that is computed for the data is inside the file only if it is the right one. -/
theorem dataAt_eq_ok_iff (hlen : rest.length < 2 ^ 31) (hpos : 0 < nameLenOf rest)
    (hlimit : nameLenOf rest < limitNameLen) {data : List UInt8} :
    dataAt rest (24 + (nameLenOf rest).toNat)
        (i32 (totalLenOf rest - 4 - 16 - 4 - nameLenOf rest)) = .ok data ↔
      24 + nameLenOf rest ≤ totalLenOf rest ∧ totalLenOf rest ≤ rest.length ∧
        data = dataOf rest := by
  have htotal : -2 ^ 31 ≤ totalLenOf rest ∧ totalLenOf rest < 2 ^ 31 := i32_bounds _
  unfold limitNameLen at hlimit
  by_cases hwrap : -2 ^ 31 ≤ totalLenOf rest - 4 - 16 - 4 - nameLenOf rest
  · rw [i32_of_lt hwrap (by omega)]
    unfold dataAt
    split
    · constructor
      · exact nofun
      · intro h
        omega
    · have hsize : totalLenOf rest - 4 - 16 - 4 - nameLenOf rest =
          totalLenOf rest - 24 - nameLenOf rest := by omega
      rw [hsize, bytesAt_eq_ok_iff, ← and_assoc]
      refine and_congr_left' ?_
      omega
  · -- the size becomes positive, but larger than every file
    rw [i32_of_lt_neg (by omega) (by omega), dataAt, if_neg (by omega), bytesAt_eq_ok_iff]
    omega

theorem deserialize_of_fits (hlen : rest.length < 2 ^ 31) (h : Fits runtime rest) :
    deserialize runtime rest = .ok ⟨messageOf runtime rest, totalLenOf rest⟩ := by
  rw [deserialize_of_header h.header]
  split
  · rename_i hbad
    rw [messageOf, typeOf, if_pos hbad]
    rfl
  · rename_i hgood
    have hpos : 0 < nameLenOf rest := by omega
    have hlimit : nameLenOf rest < limitNameLen := by omega
    have hname := h.name hpos hlimit
    have htype := h.data
    rw [messageOf]
    rw [typeOf_eq hgood] at htype ⊢
    rw [bytesAt_of_le (by omega), ok_bind]
    cases hdesc : runtime.findMessageTypeByName
        (cString ((rest.drop 24).take (nameLenOf rest).toNat)) with
    | none => rfl
    | some desc =>
      rw [hdesc] at htype
      have hdata := (dataAt_eq_ok_iff hlen hpos hlimit).mpr
        ⟨(htype rfl).1, (htype rfl).2, rfl⟩
      rw [Option.elim_some, hdata]
      rfl

theorem fits_of_deserialize (hlen : rest.length < 2 ^ 31) {result : Deserialized M}
    (h : deserialize runtime rest = .ok result) : Fits runtime rest := by
  have hheader : 24 ≤ rest.length := by
    obtain ⟨_, _, h⟩ := bind_eq_ok.mp h
    obtain ⟨_, _, h⟩ := bind_eq_ok.mp h
    obtain ⟨_, hname, _⟩ := bind_eq_ok.mp h
    exact (ntohl_eq_ok_iff.mp hname).1
  rw [deserialize_of_header hheader] at h
  split at h
  · rename_i hbad
    refine ⟨hheader, fun hpos hlimit => by omega, fun hsome => ?_⟩
    rw [typeOf, if_pos hbad] at hsome
    cases hsome
  · rename_i hgood
    have hpos : 0 < nameLenOf rest := by omega
    have hlimit : nameLenOf rest < limitNameLen := by omega
    obtain ⟨name, hbytes, h⟩ := bind_eq_ok.mp h
    obtain ⟨hinside, rfl⟩ := bytesAt_eq_ok_iff.mp hbytes
    refine ⟨hheader, fun _ _ => by omega, fun hsome => ?_⟩
    rw [typeOf_eq hgood] at hsome
    obtain ⟨desc, hdesc⟩ := Option.isSome_iff_exists.mp hsome
    rw [hdesc, Option.elim_some] at h
    obtain ⟨data, hdata, _⟩ := bind_eq_ok.mp h
    obtain ⟨hle, hend, _⟩ := (dataAt_eq_ok_iff hlen hpos hlimit).mp hdata
    exact ⟨hle, hend⟩

end Frames

/-! ## Files -/

section Files

variable {M T : Type} {runtime : Runtime M T} {bytes : List UInt8}

/-- The length fields lead from one frame to the next and from the last one to the end of the file
or behind it. -/
inductive Leads (runtime : Runtime M T) (bytes : List UInt8) : Nat → List Nat → Prop where
  | last {offset : Nat} : Fits runtime (bytes.drop offset) →
      bytes.length ≤ offset + totalLenOf (bytes.drop offset) →
      offset + totalLenOf (bytes.drop offset) < 2 ^ 31 → Leads runtime bytes offset [offset]
  | next {offset after : Nat} {offsets : List Nat} : Fits runtime (bytes.drop offset) →
      offset + totalLenOf (bytes.drop offset) = after → after < bytes.length →
      Leads runtime bytes after offsets → Leads runtime bytes offset (offset :: offsets)

/-- The messages of the frames at these offsets. -/
def messagesAt (runtime : Runtime M T) (bytes : List UInt8) (offsets : List Nat) : List M :=
  offsets.flatMap fun offset => (messageOf runtime (bytes.drop offset)).toList

theorem length_drop_lt {offset : Nat} (hlen : bytes.length < 2 ^ 31) :
    (bytes.drop offset).length < 2 ^ 31 := by
  rw [List.length_drop]
  omega

theorem parse_of_fits {offset : Nat} (hlen : bytes.length < 2 ^ 31)
    (h : Fits runtime (bytes.drop offset)) :
    parse runtime bytes offset = .ok ((messageOf runtime (bytes.drop offset)).toList,
      totalLenOf (bytes.drop offset)) := by
  rw [parse, if_neg (by omega), Int.toNat_natCast,
    deserialize_of_fits (length_drop_lt hlen) h, ok_bind]
  rfl

theorem readLoop_succ {offset : Nat} (hlen : bytes.length < 2 ^ 31)
    (h : Fits runtime (bytes.drop offset)) (fuel : Nat) :
    readLoop runtime bytes (fuel + 1) offset =
      if i32 (offset + totalLenOf (bytes.drop offset)) ≥ bytes.length then
        .ok (messageOf runtime (bytes.drop offset)).toList
      else
        readLoop runtime bytes fuel (i32 (offset + totalLenOf (bytes.drop offset))) >>= fun rest =>
        .ok ((messageOf runtime (bytes.drop offset)).toList ++ rest) := by
  rw [readLoop, parse_of_fits hlen h, ok_bind]
  rfl

/-- Where the length fields lead to the end, the loop delivers the messages on the way. -/
theorem Leads.ends (hlen : bytes.length < 2 ^ 31) {offset : Nat} {offsets : List Nat}
    (h : Leads runtime bytes offset offsets) :
    Ends (fun fuel => readLoop runtime bytes fuel offset) (messagesAt runtime bytes offsets) := by
  induction h with
  | @last offset hfits hend hlt =>
    refine Ends.of_round (fun fuel => readLoop_succ hlen hfits fuel) (Ends.of_eq fun fuel => ?_)
    rw [i32_of_lt (by omega) hlt, if_pos hend, messagesAt, List.flatMap_singleton]
  | @next offset after offsets hfits hafter hlt _ ih =>
    refine Ends.of_round (fun fuel => readLoop_succ hlen hfits fuel) ?_
    rw [hafter, i32_of_lt (by omega) (by omega)]
    simp only [if_neg (show ¬ ((after : Int) ≥ bytes.length) by omega)]
    exact ih.bind (Ends.of_eq fun _ => rfl)

/-- The loop does not go on in front of the file. -/
theorem nonneg_of_readLoop {fuel : Nat} {accumLen : Int} {msgs : List M}
    (h : readLoop runtime bytes fuel accumLen = .ok msgs) : 0 ≤ accumLen := by
  cases fuel with
  | zero => cases h
  | succ fuel =>
    obtain ⟨_, hparse, _⟩ := bind_eq_ok.mp h
    unfold parse at hparse
    split at hparse
    · cases hparse
    · omega

theorem leads_of_readLoop (hlen : bytes.length < 2 ^ 31) {fuel offset : Nat} {msgs : List M}
    (hoffset : offset < bytes.length) (h : readLoop runtime bytes fuel offset = .ok msgs) :
    ∃ offsets, Leads runtime bytes offset offsets := by
  induction fuel generalizing offset msgs with
  | zero => cases h
  | succ fuel ih =>
    have hfits : Fits runtime (bytes.drop offset) := by
      obtain ⟨_, hparse, _⟩ := bind_eq_ok.mp h
      rw [parse, if_neg (by omega), Int.toNat_natCast] at hparse
      obtain ⟨_, hdeserialize, _⟩ := bind_eq_ok.mp hparse
      exact fits_of_deserialize (length_drop_lt hlen) hdeserialize
    have htotal : -2 ^ 31 ≤ totalLenOf (bytes.drop offset) ∧
        totalLenOf (bytes.drop offset) < 2 ^ 31 := i32_bounds _
    rw [readLoop_succ hlen hfits] at h
    rcases Int.lt_or_le (offset + totalLenOf (bytes.drop offset)) (2 ^ 31) with hlt | hge
    · rw [i32_of_lt (by omega) hlt] at h
      split at h
      · rename_i hend
        exact ⟨_, .last hfits hend hlt⟩
      · rename_i hinside
        obtain ⟨rest, hrest, _⟩ := bind_eq_ok.mp h
        obtain ⟨after, hafter⟩ := Int.eq_ofNat_of_zero_le (nonneg_of_readLoop hrest)
        rw [hafter] at hrest
        obtain ⟨offsets, hleads⟩ := ih (by omega) hrest
        exact ⟨_, .next hfits hafter (by omega) hleads⟩
    · -- the sum overflows, and the loop would go on in front of the file
      rw [i32_of_ge hge (by omega), if_neg (by omega)] at h
      obtain ⟨rest, hrest, _⟩ := bind_eq_ok.mp h
      have hnonneg := nonneg_of_readLoop hrest
      omega

/-- The reader stays inside the file and comes to an end exactly if the length fields lead from
frame to frame to the end of the file, all frames inside it. It then hands to the parser the bytes
between the end of the name and the end of the frame. -/
theorem readSample_ends_iff (runtime : Runtime M T) (bytes : List UInt8)
    (hlen : 1 ≤ bytes.length ∧ bytes.length < 2 ^ 31) :
    ((∃ msgs, Ends (fun fuel => readSample runtime fuel bytes) msgs) ↔
      ∃ offsets, Leads runtime bytes 0 offsets) ∧
    ∀ offsets, Leads runtime bytes 0 offsets →
      Ends (fun fuel => readSample runtime fuel bytes) (messagesAt runtime bytes offsets) := by
  refine ⟨⟨?_, ?_⟩, fun offsets hleads => hleads.ends hlen.2⟩
  · rintro ⟨msgs, bound, hends⟩
    exact leads_of_readLoop hlen.2 hlen.1 (hends bound (Nat.le_refl _))
  · rintro ⟨offsets, hleads⟩
    exact ⟨_, hleads.ends hlen.2⟩

end Files

/-! ## A small runtime -/

/-- A runtime with one type, which is named `a` and takes all bytes. -/
def byteRuntime : Runtime (List UInt8) Unit where
  fullName _ := [0x61]
  byteSizeLong := List.length
  serializeToArray := some
  findMessageTypeByName name := if name = [0x61] then some () else none
  parseFromArray _ data := some data

/-- A frame of this data. -/
def smallFrame (data : List UInt8) : List UInt8 :=
  intBytes (25 + data.length) ++ (version ++ List.replicate 11 0) ++ intBytes 1 ++ [0x61] ++ data

/-- Two frames. -/
def smallFile : List UInt8 :=
  smallFrame [8, 1] ++ smallFrame [8, 1, 16, 2]

theorem smallFile_leads : Leads byteRuntime smallFile 0 [0, 27] := by
  refine .next ⟨?_, ?_, ?_⟩ ?_ ?_ (.last ⟨?_, ?_, ?_⟩ ?_ ?_) <;> decide +kernel

theorem smallFile_ends :
    Ends (fun fuel => readSample byteRuntime fuel smallFile) [[8, 1], [8, 1, 16, 2]] := by
  have hmessages : messagesAt byteRuntime smallFile [0, 27] = [[8, 1], [8, 1, 16, 2]] := by
    decide +kernel
  rw [← hmessages]
  exact (readSample_ends_iff byteRuntime smallFile (by decide)).2 [0, 27] smallFile_leads

/-- A header whose fields are all 0. -/
def zeroFile : List UInt8 := List.replicate 24 0

theorem zeroFile_diverges (fuel : Nat) :
    readSample byteRuntime fuel zeroFile = .error .diverged := by
  have hfits : Fits byteRuntime (zeroFile.drop 0) := by
    refine ⟨?_, ?_, ?_⟩ <;> decide +kernel
  have htotal : i32 ((0 : Nat) + totalLenOf (zeroFile.drop 0)) = (0 : Nat) := by decide +kernel
  unfold readSample
  induction fuel with
  | zero => rfl
  | succ fuel ih =>
    have hround := readLoop_succ (by decide) hfits fuel
    rw [htotal, if_neg (by decide)] at hround
    refine hround.trans ?_
    exact congrArg (· >>= _) ih

theorem oneByte_outside (fuel : Nat) :
    readSample byteRuntime (fuel + 1) [0] = .error .outOfBounds :=
  rfl

/-- A file of one byte is read outside of it, and a header of zeros is read forever. -/
theorem small_files_not_read :
    (¬ ∃ msgs, Ends (fun fuel => readSample byteRuntime fuel [0]) msgs) ∧
      ¬ ∃ msgs, Ends (fun fuel => readSample byteRuntime fuel zeroFile) msgs := by
  refine ⟨?_, ?_⟩
  · rintro ⟨msgs, bound, hends⟩
    exact nomatch (oneByte_outside bound).symm.trans (hends (bound + 1) (Nat.le_succ bound))
  · rintro ⟨msgs, bound, hends⟩
    exact nomatch (zeroFile_diverges bound).symm.trans (hends bound (Nat.le_refl bound))

end HakunaMatata.Protobuf.Cpp
