import HakunaMatata.Base.Machine
import HakunaMatata.Serialize.Model

/-!
# When the serializer keeps to its buffer

An overload writes `Var.size` bytes and asks for `Var.need`. It is right exactly if both or neither
fit in the space that remains. `RightIn` says for each kind of argument when that is so: always for
a value of a fixed width and for an array of four characters. An array of fewer characters asks for
too little and is written beyond the end of the buffer, a longer one and every string behind a
pointer ask for too much. `calls_exact_iff` is the statement for all sequences of calls.
-/

namespace HakunaMatata.Serialize

open Base

/-- The bytes that an argument takes: a tag, for strings a length, and the value or the characters
with the NUL. -/
def Var.size : Var → Nat
  | .value v => 4 + v.length
  | .charArray v => 4 + 4 + v.length
  | .constCharPtr v => 4 + 4 + (v.chars.length + 1)
  | .charPtr v => 4 + 4 + (v.chars.length + 1)

/-- The space that the overload asks for. -/
def Var.need : Var → Nat
  | .value v => u32 (v.length + 4)
  | .charArray v => u32 (v.length + 4 + u32 v.length)
  | .constCharPtr v => u32 (8 + 4 + u32 (v.chars.length + 1))
  | .charPtr v => u32 (8 + 4 + u32 (v.chars.length + 1))

/-- The argument fits in the space that remains. -/
def Fits (buf : BytesBuf) (v : Var) : Prop :=
  v.size ≤ capacity - buf.pos

instance (buf : BytesBuf) (v : Var) : Decidable (Fits buf v) :=
  inferInstanceAs (Decidable (_ ≤ _))

/-- What a single `Serialize` is to do: it ends, within the buffer, it succeeds exactly if the
argument fits, and otherwise it changes nothing. -/
def Exact (endian : Endian) (buf : BytesBuf) (v : Var) : Prop :=
  ∃ done buf', serialize endian buf v = .ok (done, buf') ∧ (done = true ↔ Fits buf v) ∧
    (done = false → buf' = buf) ∧ buf'.pos ≤ capacity

/-- What an argument has to be if `remain` bytes are left, by its kind. A value of a fixed width is
always right, unless its size is cut to 32 bits. For `n` characters of an array `n + 8` bytes are
taken and `2 * n + 4` are asked for, for a string of `n` characters `n + 9` and `n + 13`. -/
def RightIn (remain : Nat) : Var → Prop
  | .value v => v.length + 4 < 2 ^ 32 ∨ remain < u32 (v.length + 4)
  | .charArray v =>
    v.length + 8 ≤ remain ∧ 2 * v.length + 4 ≤ remain ∨
      remain < v.length + 8 ∧ remain < u32 (2 * v.length + 4)
  | .constCharPtr v =>
    v.chars.length + 13 ≤ remain ∨
      remain < v.chars.length + 9 ∧ remain < u32 (v.chars.length + 13)
  | .charPtr v =>
    v.chars.length + 13 ≤ remain ∨
      remain < v.chars.length + 9 ∧ remain < u32 (v.chars.length + 13)

/-- The arguments of one call, from a position on. The first one that does not fit ends the call. -/
def RightArgs : Nat → List Var → Prop
  | _, [] => True
  | pos, v :: rest =>
    RightIn (capacity - pos) v ∧ (v.size ≤ capacity - pos → RightArgs (pos + v.size) rest)

/-- The position behind the arguments of one call. -/
def posAfter : Nat → List Var → Nat
  | pos, [] => pos
  | pos, v :: rest => if v.size ≤ capacity - pos then posAfter (pos + v.size) rest else pos

/-- The arguments of all calls, from a position on. -/
def RightCalls : Nat → List (List Var) → Prop
  | _, [] => True
  | pos, vars :: calls => RightArgs pos vars ∧ RightCalls (posAfter pos vars) calls

theorem rightIn_iff {remain : Nat} (h : remain ≤ capacity) (v : Var) :
    RightIn remain v ↔ (v.need ≤ remain ↔ v.size ≤ remain) := by
  unfold capacity at h
  cases v <;> simp only [RightIn, Var.need, Var.size, u32] <;> omega

/-- The buffer has its size, and the position is in it or at its end. -/
structure Within (buf : BytesBuf) : Prop where
  length_eq : buf.bytes.length = capacity
  pos_le : buf.pos ≤ capacity

theorem within_empty : Within BytesBuf.empty :=
  ⟨List.length_replicate, Nat.zero_le _⟩

section Single

variable {endian : Endian} {buf buf' : BytesBuf}

theorem Within.copyIn (h : Within buf) {source : List UInt8} {count : Nat}
    (hsource : count ≤ source.length) (hfits : buf.pos + count ≤ capacity) :
    ∃ buf', copyIn buf source count = .ok buf' ∧ Within buf' ∧ buf'.pos = buf.pos + count := by
  have hsmall : u32 (buf.pos + count) = buf.pos + count := by
    refine u32_of_lt (lt_of_le_of_lt hfits ?_)
    decide
  have hbounds : 0 + count ≤ source.length ∧ buf.pos + count ≤ buf.bytes.length := by
    rw [h.length_eq]
    omega
  refine ⟨_, by rw [Serialize.copyIn, memcpy, if_pos hbounds, ok_bind]; rfl, ⟨?_, ?_⟩, hsmall⟩
  · have hlength := h.length_eq
    simp only [List.length_append, List.length_take, List.length_drop]
    omega
  · show u32 (buf.pos + count) ≤ capacity
    rw [hsmall]
    exact hfits

/-- The number of bytes that the parts take. -/
def partsSize : List (List UInt8 × Nat) → Nat
  | [] => 0
  | part :: parts => part.2 + partsSize parts

theorem Within.copyParts (h : Within buf) (parts : List (List UInt8 × Nat))
    (hsources : ∀ part ∈ parts, part.2 ≤ part.1.length)
    (hfits : buf.pos + partsSize parts ≤ capacity) :
    ∃ buf', parts.foldlM (fun buf part => Serialize.copyIn buf part.1 part.2) buf = .ok buf' ∧
      Within buf' ∧ buf'.pos = buf.pos + partsSize parts := by
  induction parts generalizing buf with
  | nil => exact ⟨buf, rfl, h, rfl⟩
  | cons part parts ih =>
    rw [partsSize] at hfits
    obtain ⟨next, hnext, hwithin, hpos⟩ :=
      h.copyIn (hsources part List.mem_cons_self) (show buf.pos + part.2 ≤ capacity by omega)
    obtain ⟨buf', hbuf', hwithin', hpos'⟩ := ih hwithin
      (fun other hother => hsources other (List.mem_cons_of_mem part hother)) (by omega)
    refine ⟨buf', ?_, hwithin', ?_⟩
    · rw [List.foldlM_cons, hnext, ok_bind]
      exact hbuf'
    · rw [hpos', hpos, partsSize]
      omega

/-- The space that remains is computed without a wrap. -/
theorem Within.remain_eq (h : Within buf) :
    u32 (capacity + (2 ^ 32 - buf.pos)) = capacity - buf.pos := by
  have hpos := h.pos_le
  unfold u32 capacity at *
  omega

/-- What is written if the space that is asked for is there. -/
def Var.parts (endian : Endian) : Var → List (List UInt8 × Nat)
  | .value v => [(storeWord endian 4 varTypeConst, 4), (v, v.length)]
  | .charArray v =>
    [(storeWord endian 4 varTypeStr, 4), (storeWord endian 4 (u32 v.length), 4),
      (v, u32 v.length)]
  | .constCharPtr v =>
    [(storeWord endian 4 varTypeStr, 4), (storeWord endian 4 (u32 (v.chars.length + 1)), 4),
      (v.bytes, u32 (v.chars.length + 1))]
  | .charPtr v =>
    [(storeWord endian 4 varTypeStr, 4), (storeWord endian 4 (u32 (v.chars.length + 1)), 4),
      (v.bytes, u32 (v.chars.length + 1))]

/-- All overloads compare and write in the same way. -/
theorem serialize_eq (v : Var) :
    serialize endian buf v = writeParts buf v.need (v.parts endian) := by
  cases v <;> rfl

theorem u32_le (n : Nat) : u32 n ≤ n :=
  Nat.mod_le n _

theorem parts_sources (endian : Endian) (v : Var) :
    ∀ part ∈ v.parts endian, part.2 ≤ part.1.length := by
  cases v with
  | value v =>
    intro part hpart
    simp only [Var.parts, List.mem_cons, List.not_mem_nil, or_false] at hpart
    rcases hpart with rfl | rfl <;> simp
  | charArray v =>
    intro part hpart
    simp only [Var.parts, List.mem_cons, List.not_mem_nil, or_false] at hpart
    rcases hpart with rfl | rfl | rfl <;> simp [u32_le]
  | constCharPtr v =>
    intro part hpart
    simp only [Var.parts, List.mem_cons, List.not_mem_nil, or_false] at hpart
    rcases hpart with rfl | rfl | rfl <;> simp [u32_le, CString.bytes]
  | charPtr v =>
    intro part hpart
    simp only [Var.parts, List.mem_cons, List.not_mem_nil, or_false] at hpart
    rcases hpart with rfl | rfl | rfl <;> simp [u32_le, CString.bytes]

/-- The parts of an argument that fits take its size: no length is cut to 32 bits. -/
theorem partsSize_eq (endian : Endian) {v : Var} (h : v.size ≤ capacity) :
    partsSize (v.parts endian) = v.size := by
  unfold capacity at h
  cases v <;> simp only [Var.parts, Var.size, partsSize, u32] at * <;> omega

/-- An argument that is right is written if it fits, and nothing is otherwise. -/
theorem Within.serialize (endian : Endian) (h : Within buf) {v : Var}
    (hright : RightIn (capacity - buf.pos) v) :
    (Fits buf v → ∃ buf', Serialize.serialize endian buf v = .ok (true, buf') ∧ Within buf' ∧
      buf'.pos = buf.pos + v.size) ∧
    (¬ Fits buf v → Serialize.serialize endian buf v = .ok (false, buf)) := by
  have hagree := (rightIn_iff (Nat.sub_le _ _) v).mp hright
  rw [serialize_eq, writeParts, h.remain_eq]
  constructor
  · intro hfits
    have hpos := h.pos_le
    have hsize : v.size ≤ capacity - buf.pos := hfits
    have hparts := partsSize_eq endian (Nat.le_trans hsize (Nat.sub_le _ _))
    obtain ⟨buf', hbuf', hwithin, hpos'⟩ :=
      h.copyParts (v.parts endian) (parts_sources endian v) (by omega)
    refine ⟨buf', ?_, hwithin, hpos'.trans (by rw [hparts])⟩
    simp only [if_neg (Nat.not_lt.mpr (hagree.mpr hfits)), hbuf', ok_bind]
    rfl
  · intro hnot
    exact if_pos (Nat.lt_of_not_le fun hneed => hnot (hagree.mp hneed))

/-- A single call is right exactly if its argument is. -/
theorem exact_iff (h : Within buf) (v : Var) :
    Exact endian buf v ↔ RightIn (capacity - buf.pos) v := by
  constructor
  · rintro ⟨done, buf', hrun, hdone, _⟩
    rw [rightIn_iff (Nat.sub_le _ _)]
    rw [serialize_eq, writeParts, h.remain_eq] at hrun
    by_cases hneed : capacity - buf.pos < v.need
    · simp only [if_pos hneed] at hrun
      cases hrun
      exact iff_of_false (by omega) fun hfits => absurd (hdone.mpr hfits) (by decide)
    · simp only [if_neg hneed] at hrun
      obtain ⟨written, _, hrun⟩ := bind_eq_ok.mp hrun
      cases hrun
      exact iff_of_true (by omega) (hdone.mp rfl)
  · intro hright
    by_cases hfits : Fits buf v
    · obtain ⟨buf', hrun, hwithin, _⟩ := (h.serialize endian hright).1 hfits
      exact ⟨true, buf', hrun, by simp [hfits], by simp, hwithin.pos_le⟩
    · have hrun := (h.serialize endian hright).2 hfits
      exact ⟨false, buf, hrun, by simp [hfits], fun _ => rfl, h.pos_le⟩

end Single

section Calls

variable (endian : Endian)

/-- The single calls that are made for the arguments of a call meet the condition. -/
def EachSingle (P : BytesBuf → Var → Prop) : BytesBuf → List Var → Prop
  | _, [] => True
  | buf, v :: rest =>
    P buf v ∧ ∀ buf', serialize endian buf v = .ok (true, buf') → EachSingle P buf' rest

/-- The buffer after a call of `SerializeVars`. -/
def callVars (buf : BytesBuf) (vars : List Var) : Except Fault BytesBuf := do
  let result ← serializeVars endian buf vars
  pure result.2

variable {endian}

theorem eachSingle_exact_iff {buf : BytesBuf} (h : Within buf) (vars : List Var) :
    EachSingle endian (Exact endian) buf vars ↔ RightArgs buf.pos vars := by
  induction vars generalizing buf with
  | nil => exact Iff.rfl
  | cons v rest ih =>
    rw [EachSingle, RightArgs, exact_iff h v]
    refine and_congr_right fun hright => ?_
    by_cases hfits : Fits buf v
    · obtain ⟨next, hnext, hwithin, hpos⟩ := (h.serialize endian hright).1 hfits
      have hsize : v.size ≤ capacity - buf.pos := hfits
      simp [hnext, hsize, ← hpos, ih hwithin]
    · have hsize : ¬ v.size ≤ capacity - buf.pos := hfits
      simp [(h.serialize endian hright).2 hfits, hsize]

theorem Within.callVars (endian : Endian) {buf : BytesBuf} (h : Within buf) {vars : List Var}
    (hright : RightArgs buf.pos vars) :
    ∃ buf', Serialize.callVars endian buf vars = .ok buf' ∧ Within buf' ∧
      buf'.pos = posAfter buf.pos vars := by
  induction vars generalizing buf with
  | nil => exact ⟨buf, rfl, h, rfl⟩
  | cons v rest ih =>
    obtain ⟨hright, hrest⟩ := hright
    unfold Serialize.callVars serializeVars
    by_cases hfits : Fits buf v
    · obtain ⟨next, hnext, hwithin, hpos⟩ := (h.serialize endian hright).1 hfits
      obtain ⟨buf', hbuf', hwithin', hpos'⟩ := ih hwithin (hpos ▸ hrest hfits)
      refine ⟨buf', ?_, hwithin', ?_⟩
      · rw [hnext]
        exact hbuf'
      · rw [hpos', hpos]
        exact (if_pos hfits).symm
    · refine ⟨buf, ?_, h, (if_neg hfits).symm⟩
      rw [(h.serialize endian hright).2 hfits]
      rfl

theorem along_exact_iff {buf : BytesBuf} (h : Within buf) (calls : List (List Var)) :
    Along (callVars endian) (EachSingle endian (Exact endian)) buf calls ↔
      RightCalls buf.pos calls := by
  induction calls generalizing buf with
  | nil => exact Iff.rfl
  | cons vars calls ih =>
    rw [Along, RightCalls, eachSingle_exact_iff h vars]
    refine and_congr_right fun hright => ?_
    obtain ⟨next, hnext, hwithin, hpos⟩ := h.callVars endian hright
    simp [hnext, ← hpos, ih hwithin]

/-- In every sequence of calls from an empty buffer, every single call succeeds exactly if its
argument fits, changes nothing otherwise and keeps to the buffer, exactly if every argument is right
at the position that the sizes of the arguments before it add up to. -/
theorem calls_exact_iff (endian : Endian) (calls : List (List Var)) :
    Along (callVars endian) (EachSingle endian (Exact endian)) BytesBuf.empty calls ↔
      RightCalls 0 calls :=
  along_exact_iff within_empty calls

/-- Behind 1018 bytes an array of one character is written beyond the end of the buffer, and behind
1015 bytes the empty string is refused although its nine bytes fit. -/
theorem calls_lost :
    serializeVars .little .empty [.value (List.replicate 1014 0), .charArray [0]] =
      .error .outOfBounds ∧
    ∃ buf, serialize .little .empty (.value (List.replicate 1011 0)) = .ok (true, buf) ∧
      Fits buf (.charPtr ⟨[], List.not_mem_nil⟩) ∧
      serialize .little buf (.charPtr ⟨[], List.not_mem_nil⟩) = .ok (false, buf) := by
  exact ⟨by decide +kernel, ⟨List.replicate 1024 0, 1015⟩, by decide +kernel, by decide,
    by decide +kernel⟩

end Calls

end HakunaMatata.Serialize
