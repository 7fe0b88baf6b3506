import HakunaMatata.TcpNData.Delivery

/-!
# `block_writev` on its array of vectors

`block_writev` keeps the array of vectors and the index of the first one that is not done, and
after a partial write it moves the start of a vector in place. Here the array, the index and the
calls of `writev` are explicit. `blockWritevLoop_refines` forgets them: what is left of the array
behind the index is the list of vectors of `TcpNData.blockWritevLoop`, so this loop ends because
that one does. What each call of `writev` is given follows from an invariant of the rounds.
-/

namespace HakunaMatata.TcpNData.Resume

open Base

/-- The array `iov` of `iovcnt` vectors, and `offset`. -/
structure Vectors where
  iov : List Iovec
  offset : Nat
  deriving DecidableEq, Repr

/-- The vectors that are passed on: `iov + offset`, `iovcnt - offset`. -/
def Vectors.passed (s : Vectors) : List Iovec :=
  s.iov.drop s.offset

/-- A call of `writev`: its vectors, and the bytes that the socket has accepted before it. -/
structure Call where
  vectors : List Iovec
  sent : List UInt8
  deriving DecidableEq, Repr

/-- The loop over the vectors from index `i` on, of which there are `left`. -/
def setIov : (left i : Nat) → (remainSendBytes : Int) → Vectors → Except Fault Vectors
  | 0, _, _, s => .ok s
  | left + 1, i, remainSendBytes, s => do
    let v ← load s.iov i
    if remainSendBytes < i32 v.len then
      let iov ← store s.iov i
        ⟨v.object, v.start + remainSendBytes.toNat, (i32 v.len - remainSendBytes).toNat⟩
      pure ⟨iov, s.offset⟩
    else setIov left (i + 1) (remainSendBytes - i32 v.len) ⟨s.iov, s.offset + 1⟩

/-- What `block_writev` returns and leaves: its result, the socket, and the calls of `writev`. -/
structure Result where
  ret : Int
  socket : Socket
  calls : List Call
  deriving DecidableEq, Repr

/-- The loop of `block_writev`. -/
def blockWritevLoop (schedule : Nat → Answer) (totalBytes : Int) :
    Nat → Vectors → Int → Socket → List Call → Except Fault Result
  | 0, _, _, _, _ => .error .diverged
  | fuel + 1, s, totalSndBytes, socket, calls => do
    let calls := calls ++ [⟨s.passed, socket.sent⟩]
    let written ← writev schedule socket s.passed
    if 0 < written.count then
      let totalSndBytes := i32 (totalSndBytes + written.count)
      if totalSndBytes = totalBytes then pure ⟨totalBytes, written.socket, calls⟩
      else do
        let s ← setIov (s.iov.length - s.offset) s.offset written.count s
        blockWritevLoop schedule totalBytes fuel s totalSndBytes written.socket calls
    else if written.count = eventError then
      if written.retry then
        blockWritevLoop schedule totalBytes fuel s totalSndBytes written.socket calls
      else pure ⟨eventError, written.socket, calls⟩
    else pure ⟨0, written.socket, calls⟩

/-- `block_writev`. -/
def blockWritev (schedule : Nat → Answer) (fuel : Nat) (iov : List Iovec) (len : Nat)
    (socket : Socket) : Except Fault Result :=
  blockWritevLoop schedule (i32 len) fuel ⟨iov, 0⟩ 0 socket []

/-! ## The array behind the index -/

/-- The loop over the vectors leaves behind the index what `skipSent` leaves. -/
theorem setIov_eq (left : Nat) (remainSendBytes : Int) (s : Vectors)
    (hleft : s.offset + left = s.iov.length) :
    ∃ s', setIov left s.offset remainSendBytes s = .ok s' ∧ s'.offset ≤ s'.iov.length ∧
      s'.passed = skipSent remainSendBytes s.passed := by
  induction left generalizing remainSendBytes s with
  | zero =>
    have hnil : s.passed = [] := List.drop_eq_nil_of_le (by omega)
    refine ⟨s, rfl, by omega, ?_⟩
    rw [hnil]
    rfl
  | succ left ih =>
    have hlt : s.offset < s.iov.length := by omega
    have hpassed : s.passed = s.iov[s.offset] :: s.iov.drop (s.offset + 1) :=
      List.drop_eq_getElem_cons hlt
    rw [setIov, load_of_lt hlt, ok_bind, hpassed, skipSent]
    by_cases hpart : remainSendBytes < i32 s.iov[s.offset].len
    · -- the socket stopped inside this vector
      rw [if_pos hpart, if_pos hpart, store_of_lt hlt, ok_bind]
      refine ⟨_, rfl, ?_, ?_⟩
      · rw [List.length_set]
        exact Nat.le_of_lt hlt
      · rw [Vectors.passed, List.drop_set, if_neg (Nat.lt_irrefl _), Nat.sub_self]
        exact congrArg (List.set · 0 _) hpassed
    · rw [if_neg hpart, if_neg hpart]
      exact ih _ ⟨s.iov, s.offset + 1⟩ (by simp only; omega)

/-- Without the array and the calls, the loop is that of the list of vectors. -/
theorem blockWritevLoop_refines (schedule : Nat → Answer) (totalBytes : Int) (fuel : Nat)
    (s : Vectors) (hs : s.offset ≤ s.iov.length) (totalSndBytes : Int) (socket : Socket)
    (calls : List Call) :
    (blockWritevLoop schedule totalBytes fuel s totalSndBytes socket calls).map
        (fun result => (result.ret, result.socket)) =
      TcpNData.blockWritevLoop schedule totalBytes fuel s.passed totalSndBytes socket := by
  induction fuel generalizing s totalSndBytes socket calls with
  | zero => rfl
  | succ fuel ih =>
    rw [blockWritevLoop, TcpNData.blockWritevLoop]
    cases hwrite : writev schedule socket s.passed with
    | error e => rfl
    | ok written =>
      rw [ok_bind, ok_bind]
      by_cases hpos : 0 < written.count
      · rw [if_pos hpos, if_pos hpos]
        dsimp only
        by_cases hall : i32 (totalSndBytes + written.count) = totalBytes
        · rw [if_pos hall, if_pos hall]
          rfl
        · obtain ⟨s', hset, hs', hpassed⟩ :=
            setIov_eq (s.iov.length - s.offset) written.count s (by omega)
          rw [if_neg hall, if_neg hall, hset, ok_bind, ih s' hs', hpassed]
      · rw [if_neg hpos, if_neg hpos]
        by_cases herror : written.count = eventError
        · rw [if_pos herror, if_pos herror]
          cases written.retry with
          | true => exact ih s hs _ _ _
          | false => rfl
        · rw [if_neg herror, if_neg herror]
          rfl

/-! ## The calls -/

/-- The call is given a vector, and it offers exactly the bytes that have not been accepted. -/
structure Call.Resumes (whole : List UInt8) (call : Call) : Prop where
  vectors_ne_nil : call.vectors ≠ []
  offers : call.sent ++ contents call.vectors = whole

/-- The state before a round: the bytes behind the index are those that have not been accepted,
and there is one. -/
structure Pending (total : Nat) (whole : List UInt8) (s : Vectors) (done : Nat)
    (sent : List UInt8) : Prop where
  offset_le : s.offset ≤ s.iov.length
  fits : Fits s.passed
  total : done + (contents s.passed).length = total
  pos : 0 < (contents s.passed).length
  whole : sent ++ contents s.passed = whole

section Rounds

variable {schedule : Nat → Answer} {total done : Nat} {whole sent : List UInt8} {s : Vectors}

theorem Pending.resumes (h : Pending total whole s done sent) :
    Call.Resumes whole ⟨s.passed, sent⟩ := by
  refine ⟨fun hnil => ?_, h.whole⟩
  have hpos := h.pos
  rw [show s.passed = [] from hnil] at hpos
  exact Nat.lt_irrefl 0 hpos

theorem Pending.accept (h : Pending total whole s done sent) {count : Nat}
    (hcount : count ≤ (contents s.passed).length) (hpart : done + count ≠ total) :
    ∃ s', setIov (s.iov.length - s.offset) s.offset count s = .ok s' ∧
      Pending total whole s' (done + count) (sent ++ (contents s.passed).take count) := by
  have htotal := h.total
  have hoffset := h.offset_le
  obtain ⟨s', hset, hs', hpassed⟩ := setIov_eq (s.iov.length - s.offset) count s (by omega)
  obtain ⟨hfits, hcontents⟩ := contents_skipSent h.fits count
  rw [← hpassed] at hfits hcontents
  have hlength : (contents s'.passed).length = (contents s.passed).length - count := by
    rw [hcontents, List.length_drop]
  refine ⟨s', hset, hs', hfits, by omega, by omega, ?_⟩
  rw [hcontents, List.append_assoc, List.take_append_drop, h.whole]

/-- Every call of `writev` is given the bytes that have not been accepted. -/
theorem blockWritevLoop_calls (htotal : total < 2 ^ 31) (fuel : Nat) (s : Vectors) (done : Nat)
    (socket : Socket) (calls : List Call) (hpending : Pending total whole s done socket.sent)
    (hcalls : ∀ call ∈ calls, call.Resumes whole) {result : Result}
    (h : blockWritevLoop schedule total fuel s done socket calls = .ok result) :
    ∀ call ∈ result.calls, call.Resumes whole := by
  induction fuel generalizing s done socket calls with
  | zero => cases h
  | succ fuel ih =>
    have hcalls' : ∀ call ∈ calls ++ [⟨s.passed, socket.sent⟩], call.Resumes whole := by
      intro call hcall
      rcases List.mem_append.mp hcall with hold | hnew
      · exact hcalls call hold
      · rw [List.mem_singleton.mp hnew]
        exact hpending.resumes
    have hinside := hpending.fits.inside
    have hsum := hpending.total
    have hpos := hpending.pos
    rw [blockWritevLoop] at h
    cases hanswer : schedule socket.calls with
    | accept more =>
      obtain ⟨count, hcount⟩ :
        ∃ count, count = min (more + 1) (contents s.passed).length := ⟨_, rfl⟩
      have hint : i32 (done + count : Int) = (done + count : Nat) := by
        rw [i32_of_lt (by omega) (by omega)]
        rfl
      rw [writev_accept hinside hanswer hcount, ok_bind] at h
      dsimp only at h
      rw [if_pos (by omega), hint] at h
      by_cases hall : done + count = total
      · rw [if_pos (by omega)] at h
        cases h
        exact hcalls'
      · obtain ⟨s', hset, hpending'⟩ := hpending.accept (by omega) hall
        rw [if_neg (by omega), hset, ok_bind] at h
        exact ih s' (done + count) _ _ hpending' hcalls' h
    | retry =>
      rw [writev_retry hinside hanswer, ok_bind] at h
      have hagain : blockWritevLoop schedule total fuel s done
        ⟨socket.sent, socket.calls + 1⟩ (calls ++ [⟨s.passed, socket.sent⟩]) = .ok result := h
      exact ih s done ⟨socket.sent, socket.calls + 1⟩ _ hpending hcalls' hagain
    | fail =>
      rw [writev_fail hinside hanswer, ok_bind] at h
      cases h
      exact hcalls'

end Rounds

/-! ## Every schedule -/

/-- The sum of the lengths of the vectors. -/
def totalLen : List Iovec → Nat
  | [] => 0
  | v :: iov => v.len + totalLen iov

theorem length_contents {iov : List Iovec} (h : ∀ v ∈ iov, v.Inside) :
    (contents iov).length = totalLen iov := by
  induction iov with
  | nil => rfl
  | cons v iov ih =>
    rw [contents_cons, List.length_append, Iovec.length_bytes (h v (.head _)),
      ih fun w hw => h w (.tail _ hw), totalLen]

theorem len_le_totalLen {iov : List Iovec} {v : Iovec} (h : v ∈ iov) : v.len ≤ totalLen iov := by
  induction h with
  | head iov => exact Nat.le_add_right ..
  | tail w _ ih => exact Nat.le_add_left_of_le ih

/-- Whatever parts of the bytes the socket accepts, and however often it has to be asked again,
`block_writev` returns the length after the socket has accepted the bytes of the vectors in order.
Each call of `writev` is given a vector, and the bytes it offers are those that the socket has not
accepted. -/
theorem blockWritev_resumes (schedule : Nat → Answer) (hschedule : Delivering schedule)
    (iov : List Iovec) (hinside : ∀ v ∈ iov, v.Inside) (hpos : 0 < totalLen iov)
    (hlen : totalLen iov < 2 ^ 31) (socket : Socket) :
    ∃ count bound, ∀ fuel, bound ≤ fuel → ∃ calls,
      blockWritev schedule fuel iov (totalLen iov) socket =
        .ok ⟨totalLen iov, ⟨socket.sent ++ contents iov, count⟩, calls⟩ ∧
      ∀ call ∈ calls, call.vectors ≠ [] ∧
        call.sent ++ contents call.vectors = socket.sent ++ contents iov := by
  have hlength := length_contents hinside
  have hfits : Fits iov := fun v hv =>
    ⟨hinside v hv, Nat.lt_of_le_of_lt (len_le_totalLen hv) hlen⟩
  obtain ⟨count, bound, hends⟩ := blockWritevLoop_ends hschedule hlen iov hfits 0 (by omega)
    (by omega) socket.sent socket.calls
  have hint : i32 (totalLen iov) = totalLen iov := i32_of_lt (by omega) (by omega)
  have hpending : Pending (totalLen iov) (socket.sent ++ contents iov) ⟨iov, 0⟩ 0 socket.sent :=
    ⟨Nat.zero_le _, hfits, by rw [Nat.zero_add]; exact hlength, by
      show 0 < (contents iov).length
      omega, rfl⟩
  refine ⟨count, bound, fun fuel hfuel => ?_⟩
  have hlist : TcpNData.blockWritevLoop schedule (totalLen iov) fuel (Vectors.passed ⟨iov, 0⟩) 0
    socket = .ok (totalLen iov, ⟨socket.sent ++ contents iov, count⟩) := hends fuel hfuel
  rw [← blockWritevLoop_refines schedule _ fuel ⟨iov, 0⟩ (Nat.zero_le _) 0 socket []] at hlist
  rw [blockWritev, hint]
  cases hrun : blockWritevLoop schedule (totalLen iov) fuel ⟨iov, 0⟩ 0 socket [] with
  | error e =>
    rw [hrun] at hlist
    cases hlist
  | ok result =>
    obtain ⟨ret, socket', calls⟩ := result
    rw [hrun] at hlist
    cases hlist
    refine ⟨calls, rfl, fun call hcall => ?_⟩
    obtain ⟨hne, hoffers⟩ :=
      blockWritevLoop_calls hlen fuel ⟨iov, 0⟩ 0 socket [] hpending nofun hrun call hcall
    exact ⟨hne, hoffers⟩

/-- Every second call has to be repeated, and the others accept one byte. -/
def everySecond (call : Nat) : Answer :=
  if call % 2 = 0 then .retry else .accept 0

theorem everySecond_delivering : Delivering everySecond := by
  refine ⟨fun call hfail => ?_, fun call => ?_⟩
  · unfold everySecond at hfail
    split at hfail
    · cases hfail
    · cases hfail
  · by_cases heven : call % 2 = 0
    · exact ⟨1, 0, if_neg (by omega)⟩
    · exact ⟨0, 0, if_neg (by omega)⟩

/-- Three vectors, of which the second one is empty. -/
def threeVectors : List Iovec :=
  [⟨[1, 2, 3], 1, 2⟩, ⟨[], 0, 0⟩, ⟨[4, 5], 0, 1⟩]

theorem threeVectors_inside : ∀ v ∈ threeVectors, v.Inside := by
  unfold Iovec.Inside
  decide

theorem blockWritev_resumes_threeVectors :
    0 < totalLen threeVectors ∧ totalLen threeVectors < 2 ^ 31 ∧
      ∃ count bound, ∀ fuel, bound ≤ fuel → ∃ calls,
        blockWritev everySecond fuel threeVectors 3 ⟨[], 0⟩ = .ok ⟨3, ⟨[2, 3, 4], count⟩, calls⟩ ∧
        ∀ call ∈ calls, call.vectors ≠ [] ∧
          call.sent ++ contents call.vectors = [2, 3, 4] :=
  ⟨by decide, by decide, blockWritev_resumes everySecond everySecond_delivering threeVectors
    threeVectors_inside (by decide) (by decide) ⟨[], 0⟩⟩

end HakunaMatata.TcpNData.Resume
