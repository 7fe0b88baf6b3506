import HakunaMatata.CodecBytes.Hostile
import HakunaMatata.DemoServer.Model

/-!
# What the callbacks of the demo servers read

The dispatcher hands a frame to a callback without its length. The callbacks cast the payload to
a struct, call `strlen` on its arrays and use an element count from the payload. For each callback
there is the exact condition on the frame under which every read stays inside it.
`callbacks_inside_iff` puts them together for the frames that the codec accepts.
-/

namespace HakunaMatata.DemoServer

open Base CodecBytes

section Reads

variable {endian : Endian} {peer : Peer} {msg : List UInt8}

/-- The integer at an offset of a message that is long enough. -/
def wordAt (endian : Endian) (msg : List UInt8) (offset : Nat) : Nat :=
  loadWord endian ((msg.drop offset).take 4)

theorem readWord_eq_ok_iff {offset n : Nat} :
    readWord endian msg offset = .ok n ↔
      offset + 4 ≤ msg.length ∧ wordAt endian msg offset = n := by
  unfold readWord wordAt
  rw [bind_eq_ok]
  constructor
  · rintro ⟨part, hread, hvalue⟩
    obtain ⟨hle, rfl⟩ := bytesAt_eq_ok_iff.1 hread
    cases hvalue
    exact ⟨hle, rfl⟩
  · rintro ⟨hle, rfl⟩
    exact ⟨_, bytesAt_of_le hle, rfl⟩

theorem strlen_eq_ok_iff {offset n : Nat} :
    strlen msg offset = .ok n ↔ 0 ∈ msg.drop offset ∧ (cString msg offset).length = n := by
  unfold strlen
  by_cases hmem : 0 ∈ msg.drop offset
  · simp [hmem]
  · simp [hmem]

theorem sumLoop_ok_iff (endian : Endian) (msg : List UInt8) (count i : Nat) (sum : BitVec 32) :
    (∃ total, sumLoop endian msg count i sum = .ok total) ↔
      count = 0 ∨ 24 + 4 * (i + count) ≤ msg.length := by
  induction count generalizing i sum with
  | zero => simp [sumLoop]
  | succ count ih =>
    simp only [sumLoop, bind_eq_ok, readWord_eq_ok_iff]
    constructor
    · rintro ⟨total, x, ⟨hle, rfl⟩, hrest⟩
      have hrest := (ih _ _).1 ⟨total, hrest⟩
      omega
    · intro hle
      obtain ⟨total, hrest⟩ := (ih (i + 1) (sum + BitVec.ofNat 32
        (wordAt endian msg (24 + 4 * i)))).2 (by omega)
      exact ⟨total, _, ⟨by omega, rfl⟩, hrest⟩

theorem onPing_ok_iff : (∃ peer', onPing peer msg = .ok peer') ↔ 28 ≤ msg.length := by
  simp only [onPing, bind_eq_ok, bytesAt_eq_ok_iff]
  constructor
  · rintro ⟨_, _, _, _, ⟨hle, _⟩, _⟩
    exact hle
  · intro hle
    exact ⟨_, _, ⟨by omega, rfl⟩, _, ⟨by omega, rfl⟩, rfl⟩

/-- `onLogin` reads both strings up to their ends, wherever these are. -/
theorem onLogin_ok_iff {server : Server} : (∃ peer', onLogin peer msg server = .ok peer') ↔
    0 ∈ msg.drop 20 ∧ 0 ∈ msg.drop 36 := by
  simp only [onLogin, login, bind_eq_ok, bytesAt_eq_ok_iff, strlen_eq_ok_iff]
  constructor
  · rintro ⟨_, _, ⟨_, ⟨huser, _⟩, _, ⟨hpassword, _⟩, _⟩, _⟩
    exact ⟨huser, hpassword⟩
  · rintro ⟨huser, hpassword⟩
    have hlen : 20 < msg.length := by
      have hpos := List.length_pos_of_mem huser
      rw [List.length_drop] at hpos
      omega
    exact ⟨_, _, ⟨_, ⟨huser, rfl⟩, _, ⟨hpassword, rfl⟩, rfl⟩, _, ⟨by omega, rfl⟩, rfl⟩

/-- `onReqSum` reads its struct and as many elements as it says. -/
theorem onReqSum_ok_iff : (∃ peer', onReqSum endian peer msg = .ok peer') ↔
    24 ≤ msg.length ∧ 24 + 4 * wordAt endian msg 20 ≤ msg.length := by
  simp only [onReqSum, bind_eq_ok, bytesAt_eq_ok_iff, readWord_eq_ok_iff]
  constructor
  · rintro ⟨_, _, ⟨hle, rfl⟩, _, _, sum, hsum, _⟩
    have hend := (sumLoop_ok_iff _ _ _ _ _).1 ⟨sum, hsum⟩
    omega
  · rintro ⟨hle, hend⟩
    obtain ⟨sum, hsum⟩ := (sumLoop_ok_iff endian msg (wordAt endian msg 20) 0 0).2
      (by omega)
    exact ⟨_, _, ⟨hle, rfl⟩, _, ⟨by omega, rfl⟩, sum, hsum, rfl⟩

end Reads

section Frames

variable {cfg : Config} {frame : List UInt8}

/-- The codec takes these bytes as one message, and the length in the header is their length
without wrapping around. -/
def Received (cfg : Config) (frame : List UInt8) : Prop :=
  verdict cfg frame = .take frame.length ∧ frame.length = messageLen cfg frame

instance (cfg : Config) (frame : List UInt8) : Decidable (Received cfg frame) :=
  inferInstanceAs (Decidable (_ ∧ _))

/-- The callback of the message reads nothing outside the frame, and `strlen` reads nothing
outside the two arrays of a login message. -/
def Contained (server : Server) (endian : Endian) (peer : Peer) (frame : List UInt8) : Prop :=
  (∃ peer', dispatch endian peer frame server = .ok peer') ∧
    (wordAt endian frame 8 = reqLogin.toNat →
      (∃ n, strlen (frame.take 36) 20 = .ok n) ∧ ∃ n, strlen (frame.take 68) 36 = .ok n)

/-- The condition on a frame, by its header and its payload. -/
def Fits (cfg : Config) (frame : List UInt8) : Prop :=
  let hdr := frontHeader cfg frame
  let payload := frame.drop headerSize
  (hdr.msgId = ping.toNat → 12 ≤ hdr.payloadLen) ∧
    (hdr.msgId = reqLogin.toNat → 0 ∈ (payload.drop 4).take 16 ∧ 0 ∈ (payload.drop 20).take 32) ∧
    (hdr.msgId = reqSum.toNat → 8 + 4 * wordAt cfg.host.endian payload 4 ≤ hdr.payloadLen)

theorem msgId_frontHeader :
    (frontHeader cfg frame).msgId = wordAt cfg.host.endian frame 8 := by
  simp [frontHeader, MsgHdr.read, wordAt, headerSize, List.drop_take, List.take_take]

/-- When a message that is long enough for a header is dispatched without a fault. -/
theorem dispatch_ok_iff {server : Server} {endian : Endian} {peer : Peer}
    (hlen : headerSize ≤ frame.length) :
    (∃ peer', dispatch endian peer frame server = .ok peer') ↔
      (wordAt endian frame 8 = ping.toNat → 28 ≤ frame.length) ∧
      (wordAt endian frame 8 = reqLogin.toNat → 0 ∈ frame.drop 20 ∧ 0 ∈ frame.drop 36) ∧
      (wordAt endian frame 8 = reqSum.toNat →
        24 + 4 * wordAt endian frame 20 ≤ frame.length) := by
  have hid : readWord endian frame 8 = .ok (wordAt endian frame 8) :=
    readWord_eq_ok_iff.2 ⟨by unfold headerSize at hlen; omega, rfl⟩
  unfold dispatch
  rw [hid, ok_bind]
  by_cases hping : wordAt endian frame 8 = ping.toNat
  · rw [if_pos hping, onPing_ok_iff, hping]
    simp [ping, reqLogin, reqSum]
  · rw [if_neg hping]
    by_cases hlogin : wordAt endian frame 8 = reqLogin.toNat
    · rw [if_pos hlogin, onLogin_ok_iff, hlogin]
      simp [ping, reqLogin, reqSum]
    · rw [if_neg hlogin]
      by_cases hsum : wordAt endian frame 8 = reqSum.toNat
      · rw [if_pos hsum, onReqSum_ok_iff, hsum]
        simp only [ping, reqLogin, reqSum, UInt32.reduceToNat, Nat.reduceEqDiff, false_implies,
          true_and, forall_const]
        omega
      · rw [if_neg hsum]
        simp only [hping, hlogin, hsum, false_implies, and_self, iff_true]
        exact ⟨peer, rfl⟩

/-- For every frame that the codec accepts, with any payload: the callback of its message reads
only the frame, and the strings only up to the ends of their arrays, exactly if the frame fits. -/
theorem callbacks_inside_iff (h : Received cfg frame) (server : Server) (peer : Peer) :
    Contained server cfg.host.endian peer frame ↔ Fits cfg frame := by
  have hlen : headerSize ≤ frame.length := (verdict_eq_take_iff.1 h.1).1.1
  have hpayload : frame.length = 16 + (frontHeader cfg frame).payloadLen := h.2
  have huser : (frame.take 36).drop 20 = (frame.drop 20).take 16 := by rw [List.drop_take]
  have hpassword : (frame.take 68).drop 36 = (frame.drop 36).take 32 := by rw [List.drop_take]
  have harrLen : wordAt cfg.host.endian (frame.drop headerSize) 4 =
      wordAt cfg.host.endian frame 20 := by
    rw [wordAt, List.drop_drop]
    rfl
  simp only [Contained, Fits, dispatch_ok_iff hlen, strlen_eq_ok_iff, exists_and_left, exists_eq',
    and_true, huser, hpassword, msgId_frontHeader, harrLen, List.drop_drop]
  constructor
  · rintro ⟨⟨hping, _, hsum⟩, hstrings⟩
    refine ⟨fun hid => ?_, hstrings, fun hid => ?_⟩
    · have := hping hid
      omega
    · have := hsum hid
      omega
  · rintro ⟨hping, hstrings, hsum⟩
    refine ⟨⟨fun hid => ?_, fun hid => ?_, fun hid => ?_⟩, hstrings⟩
    · have := hping hid
      omega
    · exact (hstrings hid).imp List.mem_of_mem_take List.mem_of_mem_take
    · have := hsum hid
      omega

/-- A frame with this id and payload, as a little-endian client sends it. -/
def frameOf (msgId : UInt32) (payload : List UInt8) : List UInt8 :=
  Message.encoded defaultConfig.host ⟨msgId, payload⟩

theorem callbacks_inside_iff_ping :
    Received defaultConfig (frameOf ping (List.replicate 12 7)) ∧
      Contained .single .little .start (frameOf ping (List.replicate 12 7)) := by
  have h : Received defaultConfig (frameOf ping (List.replicate 12 7)) := by
    decide +kernel
  exact ⟨h, (callbacks_inside_iff h .single .start).2 ⟨by decide, by decide, by decide⟩⟩

/-- A request to add one number that has no number, and a login without a payload: the callbacks
read behind the frame. A login whose user name has no NUL in its array is read into the password
array. -/
theorem short_payload_read_outside :
    (Received defaultConfig (frameOf reqSum [0, 0, 0, 0, 1, 0, 0, 0]) ∧
      dispatch .little .start (frameOf reqSum [0, 0, 0, 0, 1, 0, 0, 0]) .single =
        .error .outOfBounds) ∧
    (Received defaultConfig (frameOf reqLogin []) ∧
      dispatch .little .start (frameOf reqLogin []) .worker = .error .outOfBounds) ∧
    (Received defaultConfig (frameOf reqLogin (List.replicate 20 65 ++ List.replicate 32 0)) ∧
      strlen ((frameOf reqLogin (List.replicate 20 65 ++ List.replicate 32 0)).take 36) 20 =
        .error .outOfBounds) := by
  decide +kernel

end Frames

end HakunaMatata.DemoServer
