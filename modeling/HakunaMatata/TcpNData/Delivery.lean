import HakunaMatata.TcpNData.Model

/-!
# The sending methods put the records on the socket

`blockWritevLoop_ends` is the result about resumption: the bytes of the vectors that are left are
always the bytes the socket has not accepted (`contents_skipSent`), so each accepted call
leaves fewer of them and the loop ends with all of them sent, in order. A method is a sequence of
such writes, and `Sends` composes along it. Both levels of cutting, the copy into segments and the
segments into batches, are `flatMap_batches`: parts of one size taken one after the other make up
the whole.
-/

namespace HakunaMatata.TcpNData

open Base

variable {schedule : Nat → Answer}

/-! ## Resuming a gathered write -/

/-- Vectors that lie in their objects, with lengths that fit in an `int`. -/
def Fits (iov : List Iovec) : Prop :=
  ∀ v ∈ iov, v.Inside ∧ v.len < 2 ^ 31

namespace Fits

variable {v : Iovec} {iov : List Iovec}

theorem inside (h : Fits iov) : ∀ v ∈ iov, v.Inside :=
  fun v hv => (h v hv).1

theorem tail (h : Fits (v :: iov)) : Fits iov :=
  fun w hw => h w (List.mem_cons_of_mem v hw)

theorem cons (hv : v.Inside ∧ v.len < 2 ^ 31) (h : Fits iov) : Fits (v :: iov) := by
  intro w hw
  obtain rfl | hw := List.mem_cons.mp hw
  · exact hv
  · exact h w hw

end Fits

/-- The length of a vector is not changed by the conversion to `int`. -/
theorem i32_len {v : Iovec} (h : v.len < 2 ^ 31) : i32 v.len = v.len :=
  i32_of_lt (by omega) (by omega)

theorem bytes_moved (v : Iovec) (count : Nat) :
    Iovec.bytes ⟨v.object, v.start + count, v.len - count⟩ = v.bytes.drop count := by
  simp only [Iovec.bytes, List.drop_take, List.drop_drop]

/-- What is left of the vectors are their bytes behind the accepted ones. -/
theorem contents_skipSent {iov : List Iovec} (hfits : Fits iov) (count : Nat) :
    Fits (skipSent count iov) ∧ contents (skipSent count iov) = (contents iov).drop count := by
  induction iov generalizing count with
  | nil => exact ⟨hfits, (List.drop_nil).symm⟩
  | cons v iov ih =>
    obtain ⟨hinside, hlen⟩ := hfits v List.mem_cons_self
    have hbytes := Iovec.length_bytes hinside
    rw [skipSent, i32_len hlen, contents_cons]
    by_cases hpart : (count : Int) < v.len
    · -- the socket stopped inside this vector
      have hrest : ((v.len : Int) - count).toNat = v.len - count := by omega
      rw [if_pos hpart, hrest, Int.toNat_natCast, contents_cons, bytes_moved,
        List.drop_append_of_le_length (by omega)]
      refine ⟨Fits.cons ⟨?_, ?_⟩ hfits.tail, rfl⟩
      · unfold Iovec.Inside at hinside ⊢
        simp only
        omega
      · simp only
        omega
    · have hrest : (count : Int) - v.len = (count - v.len : Nat) := by omega
      rw [if_neg hpart, hrest, List.drop_append, hbytes, List.drop_eq_nil_of_le (by omega),
        List.nil_append]
      exact ih hfits.tail (count - v.len)

section Rounds

variable {iov : List Iovec} {total done call : Nat} {sent : List UInt8}

theorem blockWritevLoop_accept (hfits : Fits iov) (hdone : done + (contents iov).length < 2 ^ 31)
    (hpos : 0 < (contents iov).length) {more count : Nat} (hcall : schedule call = .accept more)
    (hcount : count = min (more + 1) (contents iov).length) (fuel : Nat) :
    blockWritevLoop schedule total (fuel + 1) iov done ⟨sent, call⟩ =
      if done + count = total then
        .ok (total, ⟨sent ++ (contents iov).take count, call + 1⟩)
      else
        blockWritevLoop schedule total fuel (skipSent count iov) (done + count : Nat)
          ⟨sent ++ (contents iov).take count, call + 1⟩ := by
  have hwrite : writev schedule ⟨sent, call⟩ iov = _ := writev_accept hfits.inside hcall hcount
  have hsum : i32 (done + count : Int) = (done + count : Nat) := by
    rw [i32_of_lt (by omega) (by omega)]
    rfl
  rw [blockWritevLoop, hwrite, ok_bind]
  simp only
  rw [if_pos (by omega), hsum]
  by_cases hall : done + count = total
  · rw [if_pos (by omega), if_pos hall]
    rfl
  · rw [if_neg (by omega), if_neg hall]

theorem blockWritevLoop_retry (hfits : Fits iov) (hcall : schedule call = .retry) (fuel : Nat) :
    blockWritevLoop schedule total (fuel + 1) iov done ⟨sent, call⟩ =
      blockWritevLoop schedule total fuel iov done ⟨sent, call + 1⟩ := by
  have hwrite : writev schedule ⟨sent, call⟩ iov = _ := writev_retry hfits.inside hcall
  rw [blockWritevLoop, hwrite, ok_bind]
  rfl

end Rounds

theorem blockWritevLoop_ends (hschedule : Delivering schedule) {total : Nat}
    (htotal : total < 2 ^ 31) (iov : List Iovec) (hfits : Fits iov) (done : Nat)
    (hdone : done + (contents iov).length = total) (hpos : 0 < (contents iov).length)
    (sent : List UInt8) (call : Nat) :
    ∃ calls, Ends (fun fuel => blockWritevLoop schedule total fuel iov done ⟨sent, call⟩)
      (total, ⟨sent ++ contents iov, calls⟩) := by
  -- by the number of bytes that are left, and inside by the calls until the next accepted one
  induction hleft : (contents iov).length using Nat.strong_induction_on
    generalizing iov done sent call with
  | _ left ih =>
    subst hleft
    induction call using hschedule.induction with
    | accept call more hcall =>
      obtain ⟨count, hcount⟩ : ∃ count, count = min (more + 1) (contents iov).length := ⟨_, rfl⟩
      have hround := @blockWritevLoop_accept schedule iov total done call sent hfits (by omega)
        hpos more count hcall hcount
      by_cases hall : done + count = total
      · have htake : (contents iov).take count = contents iov :=
          List.take_of_length_le (by omega)
        simp only [if_pos hall, htake] at hround
        exact ⟨call + 1, Ends.of_round hround (Ends.of_eq fun _ => rfl)⟩
      · simp only [if_neg hall] at hround
        obtain ⟨hfits', hcontents⟩ := contents_skipSent hfits count
        have hlength : (contents (skipSent count iov)).length =
            (contents iov).length - count := by
          rw [hcontents, List.length_drop]
        obtain ⟨calls, hends⟩ := ih _ (by omega) (skipSent count iov) hfits' (done + count)
          (by omega) (by omega) (sent ++ (contents iov).take count) (call + 1) rfl
        rw [List.append_assoc, hcontents, List.take_append_drop] at hends
        exact ⟨calls, Ends.of_round hround hends⟩
    | retry call hcall ih =>
      obtain ⟨calls, hends⟩ := ih
      exact ⟨calls, Ends.of_round (blockWritevLoop_retry hfits hcall) hends⟩

/-! ## Sequences of writes -/

/-- A run that puts these bytes on the socket and returns, without an error line in the log. -/
def Sends (run : Nat → Session → Except Fault Session) (bytes : List UInt8) : Prop :=
  ∀ session, ∃ calls, Ends (fun fuel => run fuel session)
    ⟨⟨session.socket.sent ++ bytes, calls⟩, session.errors⟩

namespace Sends

theorem nothing : Sends (fun _ session => pure session) [] := by
  intro session
  refine ⟨session.socket.calls, Ends.of_eq fun _ => ?_⟩
  rw [List.append_nil]
  rfl

theorem append {run next : Nat → Session → Except Fault Session} {bytes bytes' : List UInt8}
    (hrun : Sends run bytes) (hnext : Sends next bytes') :
    Sends (fun fuel session => run fuel session >>= next fuel) (bytes ++ bytes') := by
  intro session
  obtain ⟨calls, hends⟩ := hrun session
  obtain ⟨calls', hends'⟩ := hnext ⟨⟨session.socket.sent ++ bytes, calls⟩, session.errors⟩
  rw [List.append_assoc] at hends'
  exact ⟨calls', hends.bind hends'⟩

theorem foldlM {ι : Type} {step : Nat → ι → Session → Except Fault Session}
    {bytes : ι → List UInt8} {items : List ι}
    (h : ∀ i ∈ items, Sends (fun fuel => step fuel i) (bytes i)) :
    Sends (fun fuel session => items.foldlM (fun session i => step fuel i session) session)
      (items.flatMap bytes) := by
  induction items with
  | nil => exact nothing
  | cons i items ih =>
    have hrest := ih fun j hj => h j (List.mem_cons_of_mem i hj)
    simp only [List.foldlM_cons]
    exact (h i List.mem_cons_self).append hrest

theorem of_round {run rest : Nat → Session → Except Fault Session} {bytes : List UInt8}
    (hround : ∀ fuel session, run (fuel + 1) session = rest fuel session)
    (hrest : Sends rest bytes) : Sends run bytes := by
  intro session
  obtain ⟨calls, hends⟩ := hrest session
  exact ⟨calls, Ends.of_round (fun fuel => hround fuel session) hends⟩

end Sends

theorem sends_sendBytes {object : List UInt8} {start nbytes : Nat}
    (h : start + nbytes ≤ object.length) :
    Sends (fun _ => sendBytes object start nbytes) ((object.drop start).take nbytes) := by
  intro session
  refine ⟨session.socket.calls, Ends.of_eq fun _ => ?_⟩
  simp only [sendBytes, blockWrite, Int.toNat_natCast, bytesAt_of_le h, ok_bind, pure_bind,
    Session.check, if_true]
  rfl

theorem sends_sendVectors (hschedule : Delivering schedule) {iov : List Iovec} (hfits : Fits iov)
    {len : Nat} (hlen : (contents iov).length = len) (hpos : 0 < len) (hint : len < 2 ^ 31) :
    Sends (fun fuel => sendVectors schedule fuel iov len) (contents iov) := by
  intro session
  have hi32 : i32 len = len := i32_of_lt (by omega) (by omega)
  obtain ⟨calls, hends⟩ := blockWritevLoop_ends hschedule hint iov hfits 0 (by omega) (by omega)
    session.socket.sent session.socket.calls
  refine ⟨calls, ?_⟩
  simp only [sendVectors, blockWritev, hi32]
  refine hends.bind (Ends.of_eq fun _ => ?_)
  simp only [Session.check, if_true]
  rfl

/-! ## The records one by one and gathered -/

variable {pDatas : List Data}

/-- The records, one after the other. -/
def stream (pDatas : List Data) : List UInt8 :=
  pDatas.flatMap Data.buf

@[simp] theorem stream_cons (data : Data) (pDatas : List Data) :
    stream (data :: pDatas) = data.buf ++ stream pDatas :=
  rfl

theorem length_stream (pDatas : List Data) :
    (stream pDatas).length = sizeofData * pDatas.length := by
  induction pDatas with
  | nil => rfl
  | cons data pDatas ih =>
    rw [stream_cons, List.length_append, ih, data.length_buf, List.length_cons, Nat.mul_succ,
      Nat.add_comm]

theorem sends_methodWrite : Sends (fun _ => methodWrite pDatas) (stream pDatas) := by
  refine Sends.foldlM fun data _ => ?_
  have hle : 0 + sizeofData ≤ data.buf.length := by
    rw [data.length_buf, Nat.zero_add]
  have hsends := sends_sendBytes hle
  rwa [List.drop_zero, List.take_of_length_le (Nat.le_of_eq data.length_buf)] at hsends

/-- The vectors of `method_writev`. -/
def recordIov (pDatas : List Data) : List Iovec :=
  pDatas.map fun data => ⟨data.buf, 0, sizeofData⟩

theorem fits_recordIov : Fits (recordIov pDatas) := by
  intro v hv
  obtain ⟨data, -, rfl⟩ := List.mem_map.mp hv
  have hlength := data.length_buf
  refine ⟨?_, ?_⟩
  · unfold Iovec.Inside
    simp only
    omega
  · show sizeofData < 2 ^ 31
    unfold sizeofData
    omega

theorem contents_recordIov (pDatas : List Data) : contents (recordIov pDatas) = stream pDatas := by
  rw [contents, recordIov, List.flatMap_map, stream]
  congr 1
  funext data
  rw [Iovec.bytes, List.drop_zero, List.take_of_length_le (Nat.le_of_eq data.length_buf)]

theorem length_contents_recordIov (pDatas : List Data) :
    (contents (recordIov pDatas)).length = sizeofData * pDatas.length := by
  rw [contents_recordIov, length_stream]

theorem batch_recordIov (pDatas : List Data) (i iovcnt : Nat) :
    batch (recordIov pDatas) i iovcnt =
      recordIov ((pDatas.drop (i * maxIovcnt)).take iovcnt) := by
  rw [batch, recordIov, recordIov, List.map_take, List.map_drop]

theorem sends_recordIov (hschedule : Delivering schedule) (hpos : 0 < pDatas.length)
    (hint : sizeofData * pDatas.length < 2 ^ 31) {len : Nat}
    (hlen : len = pDatas.length * sizeofData) :
    Sends (fun fuel => sendVectors schedule fuel (recordIov pDatas) len) (stream pDatas) := by
  subst hlen
  have hlength : (contents (recordIov pDatas)).length = pDatas.length * sizeofData := by
    rw [length_contents_recordIov, Nat.mul_comm]
  have hbytes : 0 < pDatas.length * sizeofData := Nat.mul_pos hpos (by decide)
  rw [← contents_recordIov]
  exact sends_sendVectors hschedule fits_recordIov hlength hbytes (by rwa [Nat.mul_comm])

theorem sends_fullBatch (hschedule : Delivering schedule)
    (hint : sizeofData * pDatas.length < 2 ^ 31) {i : Nat} (hi : i < pDatas.length / maxIovcnt) :
    Sends (fun fuel => sendVectors schedule fuel (batch (recordIov pDatas) i maxIovcnt)
      (maxIovcnt * sizeofData)) (stream ((pDatas.drop (i * maxIovcnt)).take maxIovcnt)) := by
  have hcover := Nat.div_mul_le_self pDatas.length maxIovcnt
  have hi' := Nat.mul_le_mul_right maxIovcnt (Nat.succ_le_of_lt hi)
  rw [Nat.succ_mul] at hi'
  have hlength : ((pDatas.drop (i * maxIovcnt)).take maxIovcnt).length = maxIovcnt := by
    rw [List.length_take, List.length_drop]
    omega
  have hsize := Nat.mul_le_mul_left sizeofData (show maxIovcnt ≤ pDatas.length by omega)
  rw [batch_recordIov]
  refine sends_recordIov hschedule ?_ ?_ ?_
  · rw [hlength]
    exact Nat.succ_pos _
  · rw [hlength]
    omega
  · rw [hlength]

theorem sends_lastBatch (hschedule : Delivering schedule)
    (hint : sizeofData * pDatas.length < 2 ^ 31) :
    Sends (fun fuel session =>
      if 0 < pDatas.length % maxIovcnt then
        sendVectors schedule fuel
          (batch (recordIov pDatas) (pDatas.length / maxIovcnt) (pDatas.length % maxIovcnt))
          (pDatas.length % maxIovcnt * sizeofData) session
      else pure session)
      (stream (pDatas.drop (pDatas.length / maxIovcnt * maxIovcnt))) := by
  have hcover : pDatas.length / maxIovcnt * maxIovcnt + pDatas.length % maxIovcnt =
      pDatas.length := Nat.div_add_mod' _ _
  have hlength : (pDatas.drop (pDatas.length / maxIovcnt * maxIovcnt)).length =
      pDatas.length % maxIovcnt := by
    rw [List.length_drop]
    omega
  by_cases hrest : 0 < pDatas.length % maxIovcnt
  · have hsize := Nat.mul_le_mul_left sizeofData (Nat.mod_le pDatas.length maxIovcnt)
    simp only [if_pos hrest]
    rw [batch_recordIov, List.take_of_length_le (Nat.le_of_eq hlength)]
    exact sends_recordIov hschedule (by omega) (by rw [hlength]; omega) (by rw [hlength])
  · simp only [if_neg hrest]
    rw [List.drop_eq_nil_of_le (by omega)]
    exact Sends.nothing

theorem sends_methodWritev (hschedule : Delivering schedule)
    (hint : sizeofData * pDatas.length < 2 ^ 31) :
    Sends (fun fuel => methodWritev schedule fuel pDatas) (stream pDatas) := by
  have hfull : ∀ i ∈ List.range (pDatas.length / maxIovcnt), Sends _ _ :=
    fun i hi => sends_fullBatch hschedule hint (List.mem_range.mp hi)
  have hall := (Sends.foldlM hfull).append (sends_lastBatch hschedule hint)
  simp only [stream] at hall
  rwa [flatMap_flatMap_batches, ← List.flatMap_append, List.take_append_drop] at hall

/-! ## The assembled records -/

section Assembled

variable {junk : Nat → UInt8}

theorem nbytesOf_eq (hint : sizeofData * pDatas.length < 2 ^ 31) :
    nbytesOf pDatas = (stream pDatas).length := by
  rw [nbytesOf, length_stream]
  exact i32_of_lt (by omega) (by omega)

theorem copyDatas_append {front tail : List UInt8} {i : Nat}
    (hfront : front.length = sizeofData * i) (htail : tail.length = (stream pDatas).length) :
    copyDatas (front ++ tail) i pDatas = .ok (front ++ stream pDatas) := by
  induction pDatas generalizing front tail i with
  | nil =>
    obtain rfl : tail = [] := List.length_eq_zero_iff.mp htail
    rfl
  | cons data pDatas ih =>
    rw [stream_cons, List.length_append] at htail
    rw [copyDatas, storeAt_append hfront (by omega), ok_bind, ih, stream_cons,
      List.append_assoc]
    · rw [List.length_append, hfront, data.length_buf, Nat.mul_succ]
    · rw [List.length_drop, htail, Nat.add_sub_cancel_left]

theorem assemble_eq (hint : sizeofData * pDatas.length < 2 ^ 31) :
    assemble junk pDatas = .ok (stream pDatas) := by
  have hlength : (uninit junk (nbytesOf pDatas).toNat).length = (stream pDatas).length := by
    rw [length_uninit, nbytesOf_eq hint, Int.toNat_natCast]
  have hfront : ([] : List UInt8).length = sizeofData * 0 := rfl
  exact copyDatas_append hfront hlength

theorem sends_methodBigWrite (hint : sizeofData * pDatas.length < 2 ^ 31) :
    Sends (fun _ => methodBigWrite junk pDatas) (stream pDatas) := by
  have hsends := sends_sendBytes (Nat.le_of_eq (Nat.zero_add (stream pDatas).length))
  rw [List.drop_zero, List.take_length] at hsends
  have hrun : methodBigWrite junk pDatas =
      sendBytes (stream pDatas) 0 (stream pDatas).length := by
    funext session
    rw [methodBigWrite, assemble_eq hint, ok_bind, nbytesOf_eq hint]
  rwa [hrun]

theorem curNbytes_eq (mss remain : Nat) : curNbytes mss remain = (min mss remain : Nat) := by
  unfold curNbytes
  split <;> omega

theorem sends_assembleWriteLoop {mss : Nat} (hmss : 0 < mss) {datas : List UInt8} {p : Nat}
    (hp : p < datas.length) :
    Sends (fun fuel => assembleWriteLoop mss datas fuel p (datas.length - p : Nat))
      (datas.drop p) := by
  -- by the number of bytes that remain
  induction hremain : datas.length - p using Nat.strong_induction_on generalizing p with
  | _ remain ih =>
    obtain ⟨cur, hcur⟩ : ∃ cur, cur = min mss remain := ⟨_, rfl⟩
    have hsegment := sends_sendBytes (show p + cur ≤ datas.length by omega)
    have hrest : Sends (fun fuel session =>
        if 0 < (remain : Int) - cur then
          assembleWriteLoop mss datas fuel (p + cur) (remain - cur) session
        else pure session) (datas.drop (p + cur)) := by
      by_cases hmore : cur < remain
      · have hnext := ih (remain - cur) (by omega) (show p + cur < datas.length by omega)
          (by omega)
        rw [Int.ofNat_sub (by omega)] at hnext
        simp only [if_pos (show 0 < (remain : Int) - cur by omega)]
        exact hnext
      · simp only [if_neg (show ¬0 < (remain : Int) - cur by omega)]
        rw [List.drop_eq_nil_of_le (by omega)]
        exact Sends.nothing
    have hround := hsegment.append hrest
    rw [← List.drop_drop, List.take_append_drop] at hround
    refine Sends.of_round (fun fuel session => ?_) hround
    rw [assembleWriteLoop, curNbytes_eq, ← hcur, Int.toNat_natCast]

theorem sends_methodAssembleWrite {mss : Nat} (hmss : 0 < mss) (hpos : 0 < pDatas.length)
    (hint : sizeofData * pDatas.length < 2 ^ 31) :
    Sends (fun fuel => methodAssembleWrite mss junk fuel pDatas) (stream pDatas) := by
  have hstream : 0 < (stream pDatas).length := by
    rw [length_stream]
    exact Nat.mul_pos (by decide) hpos
  have hsends := sends_assembleWriteLoop hmss hstream
  rw [List.drop_zero, Nat.sub_zero] at hsends
  have hrun : (fun fuel => methodAssembleWrite mss junk fuel pDatas) =
      fun fuel => assembleWriteLoop mss (stream pDatas) fuel 0 (stream pDatas).length := by
    funext fuel session
    rw [methodAssembleWrite, assemble_eq hint, ok_bind, nbytesOf_eq hint]
  rwa [hrun]

/-! ## The segments and their batches -/

/-- The number of parts is the least that covers the total. -/
theorem partCount_eq {total size : Nat} (hsize : 0 < size) :
    ∃ count : Nat, partCount total size = count ∧ total ≤ count * size ∧
      ∀ i < count, i * size < total := by
  have hcover := Nat.div_add_mod' total size
  have hmod := Nat.mod_lt total hsize
  have hbefore : ∀ i < total / size, i * size < total := by
    intro i hi
    have := Nat.mul_le_mul_right size (Nat.succ_le_of_lt hi)
    rw [Nat.succ_mul] at this
    omega
  rw [partCount, Int.tmod_eq_emod_of_nonneg (by omega), Int.tdiv_eq_ediv_of_nonneg (by omega)]
  by_cases hrest : 0 < total % size
  · refine ⟨total / size + 1, ?_, ?_, ?_⟩
    · rw [if_pos (by exact_mod_cast hrest)]
      rfl
    · rw [Nat.succ_mul]
      omega
    · intro i hi
      obtain hlt | rfl := Nat.lt_succ_iff_lt_or_eq.mp hi
      · exact hbefore i hlt
      · omega
  · refine ⟨total / size, ?_, by omega, hbefore⟩
    rw [if_neg (by exact_mod_cast hrest)]
    rfl

/-- Segment `i` of the copy. -/
def segment (mss : Nat) (datas : List UInt8) (i : Nat) : Iovec :=
  ⟨datas, i * mss, min mss (datas.length - i * mss)⟩

theorem bytes_segment (mss : Nat) (datas : List UInt8) (i : Nat) :
    (segment mss datas i).bytes = (datas.drop (i * mss)).take mss := by
  rw [Iovec.bytes, segment, ← List.length_drop, ← List.take_take, List.take_length]

/-- The loop that cuts the segments. -/
theorem cut_iterate {mss : Nat} {datas : List UInt8} {count : Nat}
    (hcount : ∀ i < count, i * mss < datas.length) :
    (Segments.cut mss datas)^[count] ⟨[], 0, datas.length⟩ =
      ⟨(List.range count).map (segment mss datas), min (count * mss) datas.length,
        (datas.length - count * mss : Nat)⟩ := by
  induction count with
  | zero => simp
  | succ count ih =>
    have hlast := hcount count (Nat.lt_succ_self count)
    rw [Function.iterate_succ_apply', ih fun i hi => hcount i (Nat.lt_succ_of_lt hi),
      Nat.min_eq_left (Nat.le_of_lt hlast), Segments.cut, List.range_succ, List.map_append,
      Nat.succ_mul]
    simp only [curNbytes_eq, Int.toNat_natCast]
    refine congr (congr (congrArg Segments.mk rfl) ?_) ?_
    · omega
    · omega

theorem count_batch {iov : List Iovec} (hfits : Fits iov) (start : List Iovec) (iovcnt nbytes : Nat)
    (hint : nbytes + (contents iov).length < 2 ^ 31) :
    iov.foldl (fun b v => (⟨b.iov, b.iovcnt + 1, i32 (b.nbytes + v.len)⟩ : BatchIov))
        ⟨start, iovcnt, nbytes⟩ =
      ⟨start, iovcnt + iov.length, (nbytes + (contents iov).length : Nat)⟩ := by
  induction iov generalizing iovcnt nbytes with
  | nil => rfl
  | cons v iov ih =>
    have hbytes := Iovec.length_bytes (hfits v List.mem_cons_self).1
    rw [contents_cons, List.length_append, hbytes] at hint ⊢
    have hsum : i32 (nbytes + v.len : Int) = (nbytes + v.len : Nat) := by
      rw [i32_of_lt (by omega) (by omega)]
      rfl
    rw [List.foldl_cons, hsum, ih hfits.tail (iovcnt + 1) (nbytes + v.len) (by omega),
      List.length_cons, Nat.add_assoc, Nat.add_assoc, Nat.add_comm 1]

theorem batchIov_eq {iov : List Iovec} {i : Nat} (hfits : Fits (batch iov i maxIovcnt))
    (hint : (contents (batch iov i maxIovcnt)).length < 2 ^ 31) :
    (batchIov iov i).iov.take (batchIov iov i).iovcnt = batch iov i maxIovcnt ∧
      (batchIov iov i).nbytes = (contents (batch iov i maxIovcnt)).length := by
  have hcount := count_batch hfits (iov.drop (i * maxIovcnt)) 0 0 (by omega)
  rw [Nat.zero_add, Nat.zero_add] at hcount
  have hbatch : batchIov iov i = ⟨iov.drop (i * maxIovcnt), (batch iov i maxIovcnt).length,
      (contents (batch iov i maxIovcnt)).length⟩ := hcount
  rw [hbatch]
  refine ⟨?_, rfl⟩
  show (iov.drop (i * maxIovcnt)).take (batch iov i maxIovcnt).length = _
  rw [batch, List.length_take, ← List.take_eq_take_min]

/-- The segments of a copy, with the number of them that covers it. -/
theorem fits_segments {mss count : Nat} {datas : List UInt8} (hint : datas.length < 2 ^ 31)
    (hcount : ∀ i < count, i * mss < datas.length) :
    Fits ((List.range count).map (segment mss datas)) := by
  intro v hv
  obtain ⟨i, hi, rfl⟩ := List.mem_map.mp hv
  have hlt := hcount i (List.mem_range.mp hi)
  simp only [segment, Iovec.Inside]
  omega

theorem contents_segments {mss count : Nat} {datas : List UInt8}
    (hcover : datas.length ≤ count * mss) :
    contents ((List.range count).map (segment mss datas)) = datas := by
  rw [contents, List.flatMap_map]
  simp only [bytes_segment]
  rw [flatMap_batches, List.take_of_length_le hcover]

/-- A batch of vectors that is not behind the last one has a vector, so it has a byte. -/
theorem contents_pos_of_batch {iov : List Iovec} {i : Nat} (hi : i * maxIovcnt < iov.length)
    (hpos : ∀ v ∈ iov, 0 < v.bytes.length) : 0 < (contents (batch iov i maxIovcnt)).length := by
  cases hbatch : batch iov i maxIovcnt with
  | nil =>
    have hlength := congrArg List.length hbatch
    rw [batch, List.length_take, List.length_drop, List.length_nil, maxIovcnt] at hlength
    rw [maxIovcnt] at hi
    omega
  | cons v rest =>
    have hv : v ∈ batch iov i maxIovcnt := hbatch ▸ List.mem_cons_self
    have hbytes := hpos v (List.mem_of_mem_drop (List.mem_of_mem_take hv))
    rw [contents_cons, List.length_append]
    omega

theorem sends_batches (hschedule : Delivering schedule) {iov : List Iovec} (hfits : Fits iov)
    (hpos : ∀ v ∈ iov, 0 < v.bytes.length) (hint : (contents iov).length < 2 ^ 31) {count : Nat}
    (hcover : iov.length ≤ count * maxIovcnt)
    (hcount : ∀ i < count, i * maxIovcnt < iov.length) :
    Sends (fun fuel session => (List.range count).foldlM
      (fun session i =>
        sendVectors schedule fuel ((batchIov iov i).iov.take (batchIov iov i).iovcnt)
          (batchIov iov i).nbytes.toNat session) session) (contents iov) := by
  have hbatch : ∀ i ∈ List.range count,
      Sends (fun fuel => sendVectors schedule fuel
        ((batchIov iov i).iov.take (batchIov iov i).iovcnt) (batchIov iov i).nbytes.toNat)
        (contents (batch iov i maxIovcnt)) := by
    intro i hi
    have hsub : ∀ v ∈ batch iov i maxIovcnt, v ∈ iov := fun v hv =>
      List.mem_of_mem_drop (List.mem_of_mem_take hv)
    have hfits' : Fits (batch iov i maxIovcnt) := fun v hv => hfits v (hsub v hv)
    have hpos' := contents_pos_of_batch (hcount i (List.mem_range.mp hi)) hpos
    have hsplit : (contents iov).length = (contents (iov.take (i * maxIovcnt))).length +
        ((contents (batch iov i maxIovcnt)).length +
          (contents ((iov.drop (i * maxIovcnt)).drop maxIovcnt)).length) := by
      rw [batch, ← List.length_append, ← List.length_append, ← contents_append,
        List.take_append_drop, ← contents_append, List.take_append_drop]
    have hint' : (contents (batch iov i maxIovcnt)).length < 2 ^ 31 := by omega
    obtain ⟨hvectors, hnbytes⟩ := batchIov_eq hfits' hint'
    rw [hvectors, hnbytes, Int.toNat_natCast]
    exact sends_sendVectors hschedule hfits' rfl hpos' hint'
  have hall := Sends.foldlM hbatch
  simp only [contents, batch] at hall
  rwa [flatMap_flatMap_batches, List.take_of_length_le hcover, ← contents] at hall

/-- What `method_assemble_writev` does with the segments of the copy. -/
theorem methodAssembleWritev_eq {mss nIov nBatch fuel : Nat} (hmss : 0 < mss)
    (hint : sizeofData * pDatas.length < 2 ^ 31)
    (hnIov : partCount (stream pDatas).length mss = nIov)
    (hcover : (stream pDatas).length ≤ nIov * mss)
    (hcut : ∀ i < nIov, i * mss < (stream pDatas).length)
    (hnBatch : partCount nIov maxIovcnt = nBatch) (session : Session) :
    methodAssembleWritev schedule mss junk fuel pDatas session =
      (List.range nBatch).foldlM
        (fun session i =>
          let b := batchIov ((List.range nIov).map (segment mss (stream pDatas))) i
          sendVectors schedule fuel (b.iov.take b.iovcnt) b.nbytes.toNat session) session := by
  have hmss' : ¬(mss : Int) = 0 := by omega
  have hremain : (stream pDatas).length - nIov * mss = 0 := by omega
  simp only [methodAssembleWritev, assemble_eq hint, ok_bind, nbytesOf_eq hint, hnIov, hnBatch,
    Int.toNat_natCast, cut_iterate hcut, hremain, if_neg hmss', Int.ofNat_zero, if_true]

theorem sends_methodAssembleWritev (hschedule : Delivering schedule) {mss : Nat} (hmss : 0 < mss)
    (hint : sizeofData * pDatas.length < 2 ^ 31) :
    Sends (fun fuel => methodAssembleWritev schedule mss junk fuel pDatas) (stream pDatas) := by
  obtain ⟨nIov, hnIov, hcover, hcut⟩ := @partCount_eq (stream pDatas).length mss hmss
  obtain ⟨nBatch, hnBatch, hbatches, hbatch⟩ := @partCount_eq nIov maxIovcnt (by decide)
  have hlength : (stream pDatas).length < 2 ^ 31 := by rwa [length_stream]
  have hfits := fits_segments hlength hcut
  have hpos : ∀ v ∈ (List.range nIov).map (segment mss (stream pDatas)), 0 < v.bytes.length := by
    intro v hv
    rw [Iovec.length_bytes (hfits v hv).1]
    obtain ⟨i, hi, rfl⟩ := List.mem_map.mp hv
    have hlt := hcut i (List.mem_range.mp hi)
    simp only [segment]
    omega
  have hvectors : ((List.range nIov).map (segment mss (stream pDatas))).length = nIov := by
    rw [List.length_map, List.length_range]
  have hsends := sends_batches hschedule hfits hpos (by rwa [contents_segments hcover])
    (by rwa [hvectors]) (by rwa [hvectors])
  rw [contents_segments hcover] at hsends
  intro session
  obtain ⟨calls, hends⟩ := hsends session
  refine ⟨calls, ?_⟩
  simp only [methodAssembleWritev_eq hmss hint hnIov hcover hcut hnBatch]
  exact hends

end Assembled

/-! ## All methods -/

/-- Whatever the socket accepts of each gathered write, as long as it goes on accepting, each of the
methods puts the records on it, one after the other and each byte once, and returns. -/
theorem methods_send_stream (hschedule : Delivering schedule) {mss : Int} (hmss : 0 < mss)
    (junk : Nat → UInt8) (pDatas : List Data) (hn : 1 ≤ pDatas.length)
    (hint : sizeofData * pDatas.length ≤ 2 ^ 31 - 1) :
    Sends (fun _ => methodWrite pDatas) (stream pDatas) ∧
      Sends (fun fuel => methodWritev schedule fuel pDatas) (stream pDatas) ∧
      Sends (fun _ => methodBigWrite junk pDatas) (stream pDatas) ∧
      Sends (fun fuel => methodAssembleWrite mss junk fuel pDatas) (stream pDatas) ∧
      Sends (fun fuel => methodAssembleWritev schedule mss junk fuel pDatas) (stream pDatas) := by
  obtain ⟨size, rfl⟩ : ∃ size : Nat, mss = size := ⟨mss.toNat, by omega⟩
  have hsize : 0 < size := by omega
  have hlt : sizeofData * pDatas.length < 2 ^ 31 := by omega
  exact ⟨sends_methodWrite, sends_methodWritev hschedule hlt, sends_methodBigWrite hlt,
    sends_methodAssembleWrite hsize hn hlt, sends_methodAssembleWritev hschedule hsize hlt⟩

/-- A socket that lets every other call be repeated, and accepts a hundred bytes of the rest. -/
def slowSchedule (call : Nat) : Answer :=
  if call % 2 = 0 then .retry else .accept 99

theorem delivering_slowSchedule : Delivering slowSchedule where
  ne_fail := by
    intro call
    unfold slowSchedule
    split <;> simp
  accepts := by
    intro call
    refine ⟨(call + 1) % 2, 99, if_neg ?_⟩
    omega

/-- A record of equal bytes. -/
def plainData (byte : UInt8) : Data :=
  ⟨List.replicate sizeofData byte, List.length_replicate⟩

theorem methods_send_stream_two :
    Delivering slowSchedule ∧
      Sends (fun fuel => methodAssembleWritev slowSchedule 1460 (fun _ => 0) fuel
        [plainData 1, plainData 2]) (stream [plainData 1, plainData 2]) := by
  have h := methods_send_stream delivering_slowSchedule (show (0 : Int) < 1460 by decide)
    (fun _ => 0) [plainData 1, plainData 2] (by decide) (by decide)
  exact ⟨delivering_slowSchedule, h.2.2.2.2⟩

end HakunaMatata.TcpNData
