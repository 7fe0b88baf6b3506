import HakunaMatata.Base.Framing
import HakunaMatata.CodecBytes.Model

/-!
# What the parse loop does with the bytes in the buffer

`verdict` is the decision that one iteration of the parse loop takes on the buffered bytes alone.
`parseStep_spec` says that an iteration follows it for every ideal buffer, whether the bytes of
the message are contiguous or copied, and `feed_of_drains` that calling `decode` after each
chunk delivers the frames into which the whole stream is cut.
-/

namespace HakunaMatata.CodecBytes

open Base

/-- The header that stands at the front of the buffered bytes. -/
def frontHeader (cfg : Config) (xs : List UInt8) : MsgHdr :=
  MsgHdr.read cfg.host (xs.take headerSize)

/-- A header with the right magic and flag bytes stands at the front. -/
def Accepted (cfg : Config) (xs : List UInt8) : Prop :=
  headerSize ≤ xs.length ∧ validHeader cfg (frontHeader cfg xs) = true

/-- What the parse loop does when these bytes are buffered. -/
def verdict (cfg : Config) (xs : List UInt8) : Verdict :=
  if xs.length < headerSize then .wait
  else
    let total := totalBytes (frontHeader cfg xs)
    if validHeader cfg (frontHeader cfg xs) = false then .reject
    else if 0 < cfg.msgLenLimit.toNat ∧ cfg.msgLenLimit.toNat < total then .reject
    else if xs.length < total then .wait
    else .take total

theorem verdict_eq_take_iff {cfg : Config} {xs : List UInt8} {count : Nat} :
    verdict cfg xs = .take count ↔ Accepted cfg xs ∧ count = totalBytes (frontHeader cfg xs) ∧
      (0 < cfg.msgLenLimit.toNat → count ≤ cfg.msgLenLimit.toNat) ∧ count ≤ xs.length := by
  unfold verdict Accepted
  grind

theorem verdict_bounded (cfg : Config) : Bounded (verdict cfg) := by
  intro xs count htake
  exact (verdict_eq_take_iff.mp htake).2.2.2

/-- The header is read from the first bytes only, and a decision other than waiting stays. -/
theorem verdict_stable (cfg : Config) : Stable (verdict cfg) := by
  intro xs ys hne
  have hlen : headerSize ≤ xs.length := by
    by_contra hlt
    exact hne (if_pos (Nat.lt_of_not_le hlt))
  have hheader : frontHeader cfg (xs ++ ys) = frontHeader cfg xs := by
    unfold frontHeader
    rw [List.take_append_of_le_length hlen]
  unfold verdict at hne ⊢
  rw [hheader]
  grind

section Loops

variable {β : Type*} (cfg : Config) {buffer : BytesBuffer β} {content : β → List UInt8}
  {deliver : List (List UInt8) → List UInt8 → Bool}

/-- An iteration of the parse loop follows the verdict on the buffered bytes. -/
theorem parseStep_spec (hfifo : IdealFifo buffer content)
    (hdeliver : ∀ received msg, deliver received msg = true) (link : Link β) :
    match verdict cfg (content link.buf) with
    | .wait => parseStep cfg buffer deliver link = .exit true link
    | .reject => parseStep cfg buffer deliver link = .exit false link
    | .take count => ∃ buf, content buf = (content link.buf).drop count ∧
        parseStep cfg buffer deliver link =
          .again ⟨buf, link.received ++ [(content link.buf).take count]⟩ := by
  unfold verdict parseStep frontHeader
  rw [hfifo.fetch, hfifo.readable]
  by_cases hshort : (content link.buf).length < headerSize
  · simp [hshort, Nat.not_le.mpr hshort]
  · simp only [hshort, if_false, Nat.le_of_not_lt hshort, if_true]
    generalize hhdr : MsgHdr.read cfg.host ((content link.buf).take headerSize) = hdr
    by_cases hvalid : validHeader cfg hdr = false
    · simp [hvalid]
    by_cases hlimit : 0 < cfg.msgLenLimit.toNat ∧ cfg.msgLenLimit.toNat < totalBytes hdr
    · simp [hvalid, hlimit]
    by_cases hpart : (content link.buf).length < totalBytes hdr
    · simp [hvalid, hlimit, hpart]
    simp only [hvalid, hlimit, hpart, if_false]
    have hle := Nat.le_of_not_lt hpart
    cases hreader : buffer.readerFc (totalBytes hdr) link.buf with
    | none =>
      obtain ⟨hmsg, hrest⟩ := hfifo.read _ _ hle
      exact ⟨_, hrest, by simp [hdeliver, hmsg]⟩
    | some msg =>
      obtain rfl := hfifo.readerFc _ _ _ hle hreader
      exact ⟨_, hfifo.readerMove _ _ hle, by simp [hdeliver]⟩

/-- The parse loop delivers the frames at the front of the buffer, in order. -/
theorem parseLoop_of_drains (hfifo : IdealFifo buffer content)
    (hdeliver : ∀ received msg, deliver received msg = true)
    {xs : List UInt8} {frames : List (List UInt8)} {ok : Bool} {rest : List UInt8}
    (hdrains : Drains (verdict cfg) xs frames ok rest) (link : Link β)
    (hbuf : content link.buf = xs) {fuel : Nat} (hfuel : frames.length < fuel) :
    ∃ buf, content buf = rest ∧
      parseLoop cfg buffer deliver fuel link = .ok (ok, ⟨buf, link.received ++ frames⟩) := by
  obtain ⟨fuel, rfl⟩ : ∃ n, fuel = n + 1 := ⟨fuel - 1, by omega⟩
  induction hdrains generalizing link fuel with
  | wait hwait =>
    have hstep := parseStep_spec cfg hfifo hdeliver link
    rw [hbuf, hwait] at hstep
    exact ⟨link.buf, hbuf, by simp [parseLoop, hstep]⟩
  | reject hreject =>
    have hstep := parseStep_spec cfg hfifo hdeliver link
    rw [hbuf, hreject] at hstep
    exact ⟨link.buf, hbuf, by simp [parseLoop, hstep]⟩
  | take htake _ ih =>
    have hstep := parseStep_spec cfg hfifo hdeliver link
    rw [hbuf, htake] at hstep
    obtain ⟨buf, hcontent, hagain⟩ := hstep
    rw [List.length_cons] at hfuel
    obtain ⟨fuel, rfl⟩ : ∃ n, fuel = n + 1 := ⟨fuel - 1, by omega⟩
    rename_i zs count _ _ _ _
    obtain ⟨last, hlast, hloop⟩ :=
      ih ⟨buf, link.received ++ [zs.take count]⟩ hcontent fuel (by omega)
    refine ⟨last, hlast, ?_⟩
    rw [parseLoop, hagain]
    simpa using hloop

theorem toNat_recvUnitSize (hunit : 0 < cfg.recvUnit) :
    (cfg.recvUnitSize.toNat : Int) = cfg.recvUnit := by
  unfold Config.recvUnit at hunit ⊢
  have hnat : cfg.recvUnitSize.toBitVec.toNat = cfg.recvUnitSize.toNat := rfl
  rw [BitVec.toInt_eq_toNat_cond] at hunit ⊢
  have hlt := cfg.recvUnitSize.toBitVec.isLt
  split at hunit <;> omega

/-- The read loop moves everything that the socket holds into the buffer. -/
theorem readLoop_spec (hfifo : IdealFifo buffer content) (hunit : 0 < cfg.recvUnit) (buf : β)
    (pending : List UInt8) {fuel : Nat} (hfuel : pending.length < fuel) :
    ∃ buf', content buf' = content buf ++ pending ∧
      readLoop cfg buffer fuel buf pending = .ok (buf', []) := by
  have hsize := toNat_recvUnitSize cfg hunit
  induction fuel generalizing buf pending with
  | zero => omega
  | succ fuel ih =>
    have hwritten : ∀ chunk : List UInt8,
        content (if 0 < chunk.length then buffer.writerMove chunk buf else buf) =
          content buf ++ chunk := by
      intro chunk
      split
      · exact hfifo.writerMove chunk buf
      · simp_all
    rw [readLoop, if_pos (hfifo.writerFc _ _)]
    by_cases hlast : pending.length < cfg.recvUnitSize.toNat
    · rw [List.take_of_length_le (Nat.le_of_lt hlast), if_pos (by omega),
        List.drop_of_length_le (Nat.le_of_lt hlast)]
      exact ⟨_, hwritten pending, rfl⟩
    · have hfull : (pending.take cfg.recvUnitSize.toNat).length = cfg.recvUnitSize.toNat := by
        rw [List.length_take]
        omega
      rw [if_neg (by omega)]
      obtain ⟨buf', hcontent, hloop⟩ := ih _ (pending.drop cfg.recvUnitSize.toNat)
        (by rw [List.length_drop]; omega)
      refine ⟨buf', ?_, hloop⟩
      rw [hcontent, hwritten, List.append_assoc, List.take_append_drop]

/-- The dispatcher accepts every message if the codec behind this one does. -/
theorem dispatcherDecode_eq_true {prev : Option (List (List UInt8) → List UInt8 → Bool)}
    (hprev : ∀ next ∈ prev, ∀ received msg, next received msg = true) (pending : List UInt8)
    (received : List (List UInt8)) (msg : List UInt8) :
    dispatcherDecode prev (some pending) received msg = true := by
  cases prev with
  | none => rfl
  | some next => exact hprev next rfl received msg

variable {prev : Option (List (List UInt8) → List UInt8 → Bool)}

/-- A call of `decode` delivers the frames of what was buffered and what arrived. -/
theorem decode_of_drains (hfifo : IdealFifo buffer content) (hunit : 0 < cfg.recvUnit)
    (hprev : ∀ next ∈ prev, ∀ received msg, next received msg = true) (buf : β)
    (pending : List UInt8) (received : List (List UInt8)) {frames : List (List UInt8)} {ok : Bool}
    {rest : List UInt8} (hdrains : Drains (verdict cfg) (content buf ++ pending) frames ok rest)
    {fuel : Nat} (hpending : pending.length < fuel) (hframes : frames.length < fuel) :
    ∃ buf', content buf' = rest ∧
      decode cfg buffer prev fuel ⟨some buf, some pending, some received⟩ =
        .ok (ok, ⟨some buf', some [], some (received ++ frames)⟩) := by
  obtain ⟨filled, hfilled, hread⟩ := readLoop_spec cfg hfifo hunit buf pending hpending
  obtain ⟨buf', hrest, hparse⟩ := parseLoop_of_drains cfg hfifo
    (dispatcherDecode_eq_true hprev pending) hdrains ⟨filled, received⟩ hfilled hframes
  refine ⟨buf', hrest, ?_⟩
  unfold decode
  simp only [hread, hparse, bind, Except.bind, pure, Except.pure]

/-- Calling `decode` after each chunk delivers the frames of the whole stream, wherever it is
cut. -/
theorem feed_of_drains (hfifo : IdealFifo buffer content) (hunit : 0 < cfg.recvUnit)
    (hprev : ∀ next ∈ prev, ∀ received msg, next received msg = true) (buf : β)
    (received : List (List UInt8)) (chunks : List (List UInt8)) {frames : List (List UInt8)}
    {ok : Bool} {rest : List UInt8} (hwait : verdict cfg (content buf) = .wait)
    (hdrains : Drains (verdict cfg) (content buf ++ chunks.flatten) frames ok rest)
    {fuel : Nat} (hchunks : chunks.flatten.length < fuel) (hframes : frames.length < fuel) :
    ∃ buf', (ok = true → content buf' = rest) ∧
      feed cfg buffer prev fuel chunks ⟨some buf, some [], some received⟩ =
        .ok (ok, ⟨some buf', some [], some (received ++ frames)⟩) := by
  induction chunks generalizing buf received frames with
  | nil =>
    rw [List.flatten_nil, List.append_nil] at hdrains
    obtain ⟨rfl, rfl, rfl⟩ := hdrains.of_waiting hwait
    exact ⟨buf, fun _ => rfl, by simp [feed]⟩
  | cons chunk chunks ih =>
    rw [List.flatten_cons, List.length_append] at hchunks
    rw [List.flatten_cons, ← List.append_assoc] at hdrains
    rcases hdrains.split (verdict_stable cfg) (verdict_bounded cfg) with
      ⟨first, second, middle, rfl, hfirst, hsecond⟩ | ⟨rfl, middle, hfirst⟩
    · rw [List.length_append] at hframes
      have hfirstPending : chunk.length < fuel := by omega
      have hfirstFrames : first.length < fuel := by omega
      obtain ⟨next, hnext, hcall⟩ := decode_of_drains cfg hfifo hunit hprev buf chunk received
        hfirst hfirstPending hfirstFrames
      subst hnext
      obtain ⟨buf', hrest, hfeed⟩ := ih next (received ++ first) hfirst.waits hsecond
        (by omega) (by omega)
      refine ⟨buf', hrest, ?_⟩
      simp only [feed, Option.map_some, List.nil_append, hcall, bind, Except.bind, if_true, hfeed,
        List.append_assoc]
    · have hfirstPending : chunk.length < fuel := by omega
      obtain ⟨buf', _, hcall⟩ := decode_of_drains cfg hfifo hunit hprev buf chunk received
        hfirst hfirstPending hframes
      refine ⟨buf', fun hok => absurd hok Bool.false_ne_true, ?_⟩
      simp [feed, hcall, bind, Except.bind, pure, Except.pure]

end Loops

end HakunaMatata.CodecBytes
