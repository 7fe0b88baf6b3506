import HakunaMatata.Libevent.RoundTrip

/-!
# The memory of a decoded object

`Libevent/Model.lean` decodes into records, which always have room for their fields. Here the same
functions write the fields into the bytes that `decodeMsg` allocated: as many as the size field of
the message says, which may be fewer than the record has. Every write is checked against these
bytes, and the decoder is taken from a table of three entries with a checked access. The records
are laid out with natural alignment. The main theorem, `decodeMsg_refines`, says that a run that
stays inside its memory leaves there the object that the decoder into records returns.
-/

namespace HakunaMatata.Libevent.ObjectMemory

open Base

/-- `offsetof(struct Foo, foo_id)`. -/
def fooIdOffset : Nat := 4

/-- `offsetof(struct Foo, buf)`. -/
def fooBufOffset : Nat := 8

/-- `offsetof(struct Bar, buf)`. -/
def barBufOffset : Nat := 4

/-- `offsetof(struct Bar, bar_id)`. -/
def barIdOffset : Nat := 36

/-- `offsetof(struct TimeRecord, sec)`. -/
def trSecOffset : Nat := 8

/-- `offsetof(struct TimeRecord, usec)`. -/
def trUsecOffset : Nat := 16

section Decode

variable (endian : Endian) (bytes : List UInt8)

/-- Store a 32-bit field of the object. -/
def putField32 (obj : List UInt8) (offset : Nat) (v : BitVec 32) : Except Fault (List UInt8) :=
  storeAt obj offset (storeWord endian 4 v.toNat)

/-- Store a 64-bit field of the object. -/
def putField64 (obj : List UInt8) (offset : Nat) (v : BitVec 64) : Except Fault (List UInt8) :=
  storeAt obj offset (storeWord endian 8 v.toNat)

/-- Copy a string of the message into the array at `target`, and terminate it. -/
def decodeText (target offset : Nat) (bufLen : BitVec 32) (obj : List UInt8) :
    Except Fault (List UInt8) :=
  if bufLen = 0 then storeAt obj target [0]
  else do
    let text ← bytesAt bytes offset bufLen.toNat
    let obj ← storeAt obj target text
    storeAt obj (target + bufLen.toNat) [0]

/-- `fooDecode`; `none` is its result `-1`. -/
def fooDecode (len : BitVec 32) (obj : List UInt8) : Except Fault (Option (List UInt8)) := do
  let fooId ← get32 endian bytes headSize
  let obj ← putField32 endian obj fooIdOffset fooId
  let bufLen := len - BitVec.ofNat 32 headSize - 4
  if atLeast bufLen 32 then pure none
  else do
    let obj ← decodeText bytes fooBufOffset (headSize + 4) bufLen obj
    pure (some obj)

/-- `barDecode`. -/
def barDecode (len : BitVec 32) (obj : List UInt8) : Except Fault (Option (List UInt8)) := do
  let bufLen := len - BitVec.ofNat 32 headSize - 4
  if atLeast bufLen 32 then pure none
  else do
    let obj ← decodeText bytes barBufOffset headSize bufLen obj
    let barId ← get32 endian bytes (headSize + bufLen.toNat)
    let obj ← putField32 endian obj barIdOffset barId
    pure (some obj)

/-- `trDecode`, which does not look at the length. -/
def trDecode (_len : BitVec 32) (obj : List UInt8) : Except Fault (Option (List UInt8)) := do
  let sec ← get64 endian bytes headSize
  let obj ← putField64 endian obj trSecOffset sec
  let usec ← get64 endian bytes (headSize + 8)
  let obj ← putField64 endian obj trUsecOffset usec
  pure (some obj)

/-- The column `fn_decode` of the table `obj_fn`. -/
def fnDecode : List (BitVec 32 → List UInt8 → Except Fault (Option (List UInt8))) :=
  [fooDecode endian bytes, barDecode endian bytes, trDecode endian bytes]

/-- `malloc(size)`, with arbitrary contents. -/
def malloc (junk : Nat → UInt8) (size : BitVec 32) : List UInt8 :=
  uninit junk (size.signExtend 64).toNat

/-- `decodeMsg`; `none` is a null pointer, otherwise the memory of the object is returned. -/
def decodeMsg (junk : Nat → UInt8) (len : BitVec 32) : Except Fault (Option (List UInt8)) :=
  if atLeast len headSize then do
    let size ← get32 endian bytes 0
    let type ← get32 endian bytes 4
    if type.toInt < 0 ∨ 3 < type.toInt then pure none
    else do
      let obj ← putField32 endian (malloc junk size) 0 type
      let decode ← load (fnDecode endian bytes) type.toNat
      match ← decode size obj with
      | none => pure none
      | some obj => do
        let _sec ← get64 endian bytes 8
        let _usec ← get64 endian bytes 16
        pure (some obj)
  else .ok none

end Decode

section Fields

variable (endian : Endian)

/-- A 32-bit field of the object. -/
def field32 (obj : List UInt8) (offset : Nat) : BitVec 32 :=
  BitVec.ofNat 32 (loadWord endian ((obj.drop offset).take 4))

/-- A 64-bit field of the object. -/
def field64 (obj : List UInt8) (offset : Nat) : BitVec 64 :=
  BitVec.ofNat 64 (loadWord endian ((obj.drop offset).take 8))

/-- The string that starts at the offset. -/
def textAt (obj : List UInt8) (offset : Nat) : List UInt8 :=
  (obj.drop offset).takeWhile (· ≠ 0)

/-- The value of the object in this memory. -/
def valueAt (obj : List UInt8) : Value :=
  if field32 endian obj 0 = 0 then
    .foo (field32 endian obj fooIdOffset) (textAt obj fooBufOffset)
  else if field32 endian obj 0 = 1 then
    .bar (textAt obj barBufOffset) (field32 endian obj barIdOffset)
  else .tr (field64 endian obj trSecOffset) (field64 endian obj trUsecOffset)

variable {endian} {obj obj' : List UInt8} {offset : Nat}

theorem field32_of_put {v : BitVec 32} (h : putField32 endian obj offset v = .ok obj') :
    field32 endian obj' offset = v := by
  unfold field32
  rw [drop_of_storeAt h, List.take_left' (length_storeWord endian 4 _),
    loadWord_storeWord endian v.isLt, BitVec.ofNat_toNat, BitVec.setWidth_eq]

theorem field64_of_put {v : BitVec 64} (h : putField64 endian obj offset v = .ok obj') :
    field64 endian obj' offset = v := by
  unfold field64
  rw [drop_of_storeAt h, List.take_left' (length_storeWord endian 8 _),
    loadWord_storeWord endian v.isLt, BitVec.ofNat_toNat, BitVec.setWidth_eq]

theorem field32_of_storeAt {written : List UInt8} (h : storeAt obj offset written = .ok obj')
    {field : Nat} (hbefore : field + 4 ≤ offset) :
    field32 endian obj' field = field32 endian obj field := by
  unfold field32
  rw [slice_of_storeAt h hbefore]

theorem field64_of_storeAt {written : List UInt8} (h : storeAt obj offset written = .ok obj')
    {field : Nat} (hbefore : field + 8 ≤ offset) :
    field64 endian obj' field = field64 endian obj field := by
  unfold field64
  rw [slice_of_storeAt h hbefore]

/-- A terminated string ends at the first NUL, whatever follows the terminator. -/
theorem takeWhile_terminated (text rest : List UInt8) :
    (text ++ 0 :: rest).takeWhile (· ≠ 0) = text.takeWhile (· ≠ 0) := by
  induction text with
  | nil => simp
  | cons c text ih =>
    by_cases hc : c = 0
    · simp [hc]
    · simpa [hc] using ih

theorem textAt_of_storeAt {written : List UInt8} (h : storeAt obj offset written = .ok obj')
    {field : Nat} {text rest : List UInt8} (htext : obj.drop field = text ++ 0 :: rest)
    (hbefore : field + (text.length + 1) ≤ offset) : textAt obj' field = textAt obj field := by
  have hslice := slice_of_storeAt h hbefore
  have hfront : (obj.drop field).take (text.length + 1) = text ++ [0] := by
    rw [htext, ← List.singleton_append, ← List.append_assoc]
    exact List.take_left' (by simp)
  have hdrop : obj'.drop field = text ++ 0 :: (obj'.drop field).drop (text.length + 1) := by
    rw [← List.singleton_append, ← List.append_assoc, ← hfront, ← hslice,
      List.take_append_drop]
  unfold textAt
  rw [hdrop, htext, takeWhile_terminated, takeWhile_terminated]

end Fields

section Refinement

variable (endian : Endian) {bytes : List UInt8} (fresh : CharBuf) {obj obj' : List UInt8}

theorem lt_of_not_atLeast {n : BitVec 32} (h : ¬ atLeast n 32) : n.toNat < 32 := by
  unfold atLeast at h
  have hle : n.toNat ≤ (n.signExtend 64).toNat := by
    rw [BitVec.toNat_signExtend, BitVec.toNat_setWidth_of_le (by decide)]
    exact Nat.le_add_right _ _
  omega

/-- Copying a string into the memory and into the array of a record leaves the same string. The
terminator stands at the end of the copied part. -/
theorem decodeText_refines {target offset : Nat} {bufLen : BitVec 32}
    (hlen : ¬ atLeast bufLen 32) (h : decodeText bytes target offset bufLen obj = .ok obj') :
    (∃ buf, Libevent.decodeText bytes fresh offset bufLen = .ok buf ∧
      buf.text = textAt obj' target) ∧
    (∃ text rest, obj'.drop target = text ++ 0 :: rest ∧ text.length = bufLen.toNat) ∧
    ∀ field, field + 4 ≤ target → field32 endian obj' field = field32 endian obj field := by
  have hshort := lt_of_not_atLeast hlen
  unfold decodeText at h
  unfold Libevent.decodeText
  by_cases hzero : bufLen = 0
  · rw [if_pos hzero] at h
    have hdrop := drop_of_storeAt h
    obtain ⟨buf, hwrite, hbytes⟩ := fresh.write_of_le 0 [0] (by decide)
    refine ⟨⟨buf, by rw [if_pos hzero]; exact hwrite, ?_⟩, ⟨[], _, hdrop, by rw [hzero]; rfl⟩,
      fun field hfield => field32_of_storeAt h hfield⟩
    unfold textAt CharBuf.text
    rw [hdrop, hbytes]
    rfl
  · rw [if_neg hzero] at h
    obtain ⟨text, hread, h⟩ := bind_eq_ok.mp h
    obtain ⟨copied, hcopy, hend⟩ := bind_eq_ok.mp h
    have hlength : text.length = bufLen.toNat := by
      obtain ⟨hle, rfl⟩ := bytesAt_eq_ok_iff.mp hread
      rw [List.length_take, List.length_drop]
      omega
    obtain ⟨part, hpart, hpartBytes⟩ := fresh.write_of_le 0 text (by omega)
    obtain ⟨buf, hwrite, hbytes⟩ := part.write_of_le text.length [0] (by simp; omega)
    have hterminated : obj'.drop target = text ++ 0 :: copied.drop (target + bufLen.toNat + 1) := by
      have hslice := slice_of_storeAt hend (Nat.le_refl (target + bufLen.toNat))
      rw [drop_of_storeAt hcopy, ← hlength, List.take_left] at hslice
      rw [← List.take_append_drop text.length (obj'.drop target), hslice, List.drop_drop, hlength,
        drop_of_storeAt hend]
      rfl
    have hstart : part.bytes.take text.length = text := by
      rw [hpartBytes, List.take_zero, List.nil_append, List.take_left]
    refine ⟨⟨buf, ?_, ?_⟩, ⟨text, _, hterminated, hlength⟩, fun field hfield => ?_⟩
    · rw [if_neg hzero, hread]
      simp only [bind, Except.bind, hpart]
      rw [← hlength]
      exact hwrite
    · unfold textAt CharBuf.text
      rw [hterminated, hbytes, hstart, List.append_assoc, List.singleton_append,
        takeWhile_terminated, takeWhile_terminated]
    · rw [field32_of_storeAt hend (by omega), field32_of_storeAt hcopy hfield]

theorem fooDecode_refines {len : BitVec 32} {result : Option (List UInt8)}
    (htype : field32 endian obj 0 = 0) (h : fooDecode endian bytes len obj = .ok result) :
    ∃ foo, Libevent.fooDecode endian bytes fresh len = .ok foo ∧
      result.map (valueAt endian) = (foo.map Obj.foo).map Obj.value := by
  obtain ⟨fooId, hid, h⟩ := bind_eq_ok.mp h
  obtain ⟨stored, hstore, h⟩ := bind_eq_ok.mp h
  unfold Libevent.fooDecode
  simp only [hid, bind, Except.bind]
  by_cases hlen : atLeast (len - BitVec.ofNat 32 headSize - 4) 32
  · rw [if_pos hlen] at h ⊢
    cases h
    exact ⟨none, rfl, rfl⟩
  · rw [if_neg hlen] at h ⊢
    obtain ⟨obj', htext, h⟩ := bind_eq_ok.mp h
    cases h
    obtain ⟨⟨buf, hbuf, hsame⟩, _, hfields⟩ := decodeText_refines endian fresh hlen htext
    refine ⟨some ⟨fooId, buf⟩, by rw [hbuf]; rfl, ?_⟩
    have hfoo : field32 endian obj' 0 = 0 := by
      rw [hfields 0 (by decide), field32_of_storeAt hstore (by decide), htype]
    have hfooId : field32 endian obj' fooIdOffset = fooId := by
      rw [hfields fooIdOffset (by decide), field32_of_put hstore]
    simp [valueAt, hfoo, hfooId, hsame, Obj.value]

theorem barDecode_refines {len : BitVec 32} {result : Option (List UInt8)}
    (htype : field32 endian obj 0 = 1) (h : barDecode endian bytes len obj = .ok result) :
    ∃ bar, Libevent.barDecode endian bytes fresh len = .ok bar ∧
      result.map (valueAt endian) = (bar.map Obj.bar).map Obj.value := by
  unfold barDecode at h
  unfold Libevent.barDecode
  by_cases hlen : atLeast (len - BitVec.ofNat 32 headSize - 4) 32
  · simp only [if_pos hlen] at h ⊢
    cases h
    exact ⟨none, rfl, rfl⟩
  · simp only [if_neg hlen] at h ⊢
    obtain ⟨copied, htext, h⟩ := bind_eq_ok.mp h
    obtain ⟨barId, hid, h⟩ := bind_eq_ok.mp h
    obtain ⟨obj', hstore, h⟩ := bind_eq_ok.mp h
    cases h
    have hshort := lt_of_not_atLeast hlen
    obtain ⟨⟨buf, hbuf, hsame⟩, ⟨text, rest, hdrop, hlength⟩, hfields⟩ :=
      decodeText_refines endian fresh hlen htext
    refine ⟨some ⟨buf, barId⟩, by rw [hbuf]; simp only [bind, Except.bind, hid]; rfl, ?_⟩
    have hbar : field32 endian obj' 0 = 1 := by
      rw [field32_of_storeAt hstore (by decide), hfields 0 (by decide), htype]
    -- the string and its terminator end before the id
    have hkept : textAt obj' barBufOffset = textAt copied barBufOffset :=
      textAt_of_storeAt hstore hdrop (by unfold barBufOffset barIdOffset; omega)
    simp [valueAt, hbar, field32_of_put hstore, hkept, hsame, Obj.value]

theorem trDecode_refines {len : BitVec 32} {result : Option (List UInt8)}
    (htype : field32 endian obj 0 = 2) (h : trDecode endian bytes len obj = .ok result) :
    ∃ tr, Libevent.trDecode endian bytes = .ok tr ∧
      result.map (valueAt endian) = (tr.map Obj.tr).map Obj.value := by
  obtain ⟨sec, hsec, h⟩ := bind_eq_ok.mp h
  obtain ⟨first, hfirst, h⟩ := bind_eq_ok.mp h
  obtain ⟨usec, husec, h⟩ := bind_eq_ok.mp h
  obtain ⟨obj', hsecond, h⟩ := bind_eq_ok.mp h
  cases h
  refine ⟨some ⟨sec, usec⟩, ?_, ?_⟩
  · simp only [Libevent.trDecode, hsec, husec, bind, Except.bind]
    rfl
  · have htr : field32 endian obj' 0 = 2 := by
      rw [field32_of_storeAt hsecond (by decide), field32_of_storeAt hfirst (by decide), htype]
    have hkept : field64 endian obj' trSecOffset = sec := by
      rw [field64_of_storeAt hsecond (by decide), field64_of_put hfirst]
    simp [valueAt, htr, hkept, field64_of_put hsecond, Obj.value]

/-- The table has a decoder for each of the three types, which leaves the object that the decoder
into records returns. -/
theorem decodeBody_refines {type size : BitVec 32} {result : Option (List UInt8)}
    {decode : BitVec 32 → List UInt8 → Except Fault (Option (List UInt8))}
    (htype : field32 endian obj 0 = type)
    (hload : load (fnDecode endian bytes) type.toNat = .ok decode)
    (h : decode size obj = .ok result) :
    ∃ value, Libevent.decodeBody endian bytes fresh type size = .ok value ∧
      result.map (valueAt endian) = value.map Obj.value := by
  have hindex : type.toNat < 3 := by
    by_contra hge
    have hnone : (fnDecode endian bytes)[type.toNat]? = none :=
      List.getElem?_eq_none (Nat.le_of_not_lt hge)
    simp [load, hnone] at hload
  unfold Libevent.decodeBody
  obtain hzero | hone | htwo : type = 0 ∨ type = 1 ∨ type = 2 := by
    have hcases : type.toNat = 0 ∨ type.toNat = 1 ∨ type.toNat = 2 := by omega
    simpa [← BitVec.toNat_inj] using hcases
  · subst hzero
    cases hload
    obtain ⟨foo, hfoo, hvalue⟩ := fooDecode_refines endian fresh htype h
    exact ⟨foo.map .foo, by simp [hfoo, bind, Except.bind, pure, Except.pure], hvalue⟩
  · subst hone
    cases hload
    obtain ⟨bar, hbar, hvalue⟩ := barDecode_refines endian fresh htype h
    exact ⟨bar.map .bar, by simp [hbar, bind, Except.bind, pure, Except.pure], hvalue⟩
  · subst htwo
    cases hload
    obtain ⟨tr, htr, hvalue⟩ := trDecode_refines endian htype h
    exact ⟨tr.map .tr, by simp [htr, bind, Except.bind, pure, Except.pure], hvalue⟩

/-- A run that stays inside its memory leaves there the object that the decoder into records
returns, and returns a null pointer exactly if that one does. -/
theorem decodeMsg_refines {junk : Nat → UInt8} {len : BitVec 32} {result : Option (List UInt8)}
    (h : decodeMsg endian bytes junk len = .ok result) :
    ∃ value, Libevent.decodeMsg endian bytes fresh len = .ok value ∧
      result.map (valueAt endian) = value.map Obj.value := by
  unfold decodeMsg at h
  unfold Libevent.decodeMsg
  by_cases hlen : atLeast len headSize
  · rw [if_pos hlen] at h ⊢
    obtain ⟨size, hsize, h⟩ := bind_eq_ok.mp h
    obtain ⟨type, htype, h⟩ := bind_eq_ok.mp h
    simp only [hsize, htype, bind, Except.bind]
    by_cases hrange : type.toInt < 0 ∨ 3 < type.toInt
    · rw [if_pos hrange] at h ⊢
      cases h
      exact ⟨none, rfl, rfl⟩
    · rw [if_neg hrange] at h ⊢
      obtain ⟨obj, hobj, h⟩ := bind_eq_ok.mp h
      obtain ⟨decode, hload, h⟩ := bind_eq_ok.mp h
      obtain ⟨decoded, hdecode, h⟩ := bind_eq_ok.mp h
      obtain ⟨value, hbody, hvalue⟩ :=
        decodeBody_refines endian fresh (field32_of_put hobj) hload hdecode
      rw [hbody]
      cases decoded with
      | none =>
        cases value with
        | none => cases h; exact ⟨none, rfl, rfl⟩
        | some value => cases hvalue
      | some obj' =>
        cases value with
        | none => cases hvalue
        | some value =>
          obtain ⟨sec, hsec, h⟩ := bind_eq_ok.mp h
          obtain ⟨usec, husec, h⟩ := bind_eq_ok.mp h
          cases h
          exact ⟨some value, by simp only [hsec, husec]; rfl, hvalue⟩
  · rw [if_neg hlen] at h ⊢
    cases h
    exact ⟨none, rfl, rfl⟩

end Refinement

end HakunaMatata.Libevent.ObjectMemory
