import HakunaMatata.Base.Machine
import HakunaMatata.DemoServer.Callbacks

/-!
# Login and sum requests of the demo servers

A sum request of a client that did not log in, or with more than sixteen numbers, is meant to be
refused. `dispatch_cases` says what each message does to the peer. The branches of `onReqSum` and
`onLogin` that refuse a request ask for a close and go on, so every complete sum request is answered
(`answered_iff`). What can be said is that the socket was shut down before a request
that should have been refused is answered.
-/

namespace HakunaMatata.DemoServer

open Base CodecBytes

/-- The messages that were dispatched, and the peer. -/
structure History where
  seen : List (List UInt8)
  peer : Peer

/-- Nothing was dispatched yet. -/
def History.start : History where
  seen := []
  peer := .start

/-- Dispatch the next message. -/
def receive (server : Server) (endian : Endian) (history : History) (msg : List UInt8) :
    Except Fault History := do
  let peer ← dispatch endian history.peer msg server
  return ⟨history.seen ++ [msg], peer⟩

section Requests

variable (endian : Endian) (msg : List UInt8)

/-- A sum request. -/
def IsReqSum : Prop := wordAt endian msg 8 = reqSum.toNat

/-- A login request whose strings are within their limits. -/
def AcceptedLogin : Prop :=
  wordAt endian msg 8 = reqLogin.toNat ∧ (cString msg 20).length < 16 ∧
    (cString msg 36).length < 32

/-- A sum request may be answered: a login was accepted before, and the array is not too long. -/
def Allowed (seen : List (List UInt8)) : Prop :=
  (∃ earlier ∈ seen, AcceptedLogin endian earlier) ∧ wordAt endian msg 20 ≤ 16

end Requests

/-- A message with the answer to a sum request. -/
def Action.isRspSum : Action → Bool
  | .shutdown => false
  | .send message => message.msgId == rspSum

/-- The number of answers to sum requests that the peer sent. -/
def Peer.sumsSent (peer : Peer) : Nat :=
  peer.actions.countP Action.isRspSum

section Peers

variable {peer peer' : Peer} {endian : Endian} {msg : List UInt8} {server : Server}

@[simp] theorem Peer.isLogined_closeIf (peer : Peer) (reject : Bool) :
    (peer.closeIf reject).isLogined = peer.isLogined := by
  cases reject with
  | false => rfl
  | true => rfl

theorem Peer.actions_closeIf (peer : Peer) (reject : Bool) :
    (peer.closeIf reject).actions = peer.actions ++ if reject then [.shutdown] else [] := by
  cases reject with
  | false => exact (List.append_nil _).symm
  | true => rfl

@[simp] theorem Peer.sumsSent_closeIf (peer : Peer) (reject : Bool) :
    (peer.closeIf reject).sumsSent = peer.sumsSent := by
  cases reject with
  | false => rfl
  | true => simp [Peer.sumsSent, Peer.closeIf, Peer.close, Action.isRspSum]

theorem Peer.sumsSent_send (peer : Peer) (message : Message) :
    (peer.send message).sumsSent = peer.sumsSent + if message.msgId = rspSum then 1 else 0 := by
  simp [Peer.sumsSent, Peer.send, Action.isRspSum, List.countP_append, List.countP_cons]

/-- The peer of a sum request before it is answered. -/
def Peer.checkSum (peer : Peer) (arrLen : Nat) : Peer :=
  (peer.closeIf (16 < arrLen)).closeIf (!peer.isLogined)

/-- The peer of a login request before it is detached and answered. -/
def Peer.checkLogin (peer : Peer) (msg : List UInt8) : Peer :=
  { (peer.closeIf (16 ≤ (cString msg 20).length)).closeIf (32 ≤ (cString msg 36).length) with
    userId := cString msg 20
    isLogined := true }

theorem onReqSum_cases (h : onReqSum endian peer msg = .ok peer') :
    ∃ payload, peer' = (peer.checkSum (wordAt endian msg 20)).send ⟨rspSum, payload⟩ := by
  simp only [onReqSum, bind_eq_ok, readWord_eq_ok_iff] at h
  obtain ⟨_, ⟨_, rfl⟩, _, _, _, _, hpeer⟩ := h
  rw [Peer.isLogined_closeIf] at hpeer
  cases hpeer
  exact ⟨_, rfl⟩

theorem onLogin_cases (h : onLogin peer msg server = .ok peer') :
    ∃ payload, peer' = (detach server (peer.checkLogin msg)).send ⟨rspLogin, payload⟩ := by
  simp only [onLogin, login, bind_eq_ok, strlen_eq_ok_iff] at h
  obtain ⟨_, ⟨_, ⟨_, rfl⟩, _, ⟨_, rfl⟩, hlogin⟩, _, _, hpeer⟩ := h
  cases hlogin
  cases hpeer
  exact ⟨_, rfl⟩

theorem dispatch_cases (h : dispatch endian peer msg server = .ok peer') :
    (wordAt endian msg 8 = reqSum.toNat ∧
      ∃ payload, peer' = (peer.checkSum (wordAt endian msg 20)).send ⟨rspSum, payload⟩) ∨
    (wordAt endian msg 8 = reqLogin.toNat ∧
      ∃ payload, peer' = (detach server (peer.checkLogin msg)).send ⟨rspLogin, payload⟩) ∨
    (wordAt endian msg 8 ≠ reqSum.toNat ∧ wordAt endian msg 8 ≠ reqLogin.toNat ∧
      (peer' = peer ∨ ∃ payload, peer' = peer.send ⟨pong, payload⟩)) := by
  simp only [dispatch, bind_eq_ok, readWord_eq_ok_iff] at h
  obtain ⟨_, ⟨_, rfl⟩, h⟩ := h
  split at h
  · rename_i hping
    simp only [onPing, bind_eq_ok] at h
    obtain ⟨_, _, _, _, hpeer⟩ := h
    cases hpeer
    refine .inr (.inr ⟨?_, ?_, .inr ⟨_, rfl⟩⟩)
    · rw [hping]
      decide
    · rw [hping]
      decide
  · split at h
    · exact .inr (.inl ⟨‹_›, onLogin_cases h⟩)
    · split at h
      · exact .inl ⟨‹_›, onReqSum_cases h⟩
      · cases h
        exact .inr (.inr ⟨‹_›, ‹_›, .inl rfl⟩)

@[simp] theorem sumsSent_detach (server : Server) (peer : Peer) :
    (detach server peer).sumsSent = peer.sumsSent := by
  cases server with
  | single => rfl
  | worker => rfl

@[simp] theorem actions_detach (server : Server) (peer : Peer) :
    (detach server peer).actions = peer.actions := by
  cases server with
  | single => rfl
  | worker => rfl

/-- Only a sum request is answered with a sum, and each one that is handled is. -/
theorem sum_answered_iff (h : dispatch endian peer msg server = .ok peer') :
    peer.sumsSent < peer'.sumsSent ↔ IsReqSum endian msg := by
  unfold IsReqSum
  have hlogin : rspLogin ≠ rspSum := by decide
  have hpong : pong ≠ rspSum := by decide
  rcases dispatch_cases h with ⟨hid, payload, rfl⟩ | ⟨hid, payload, rfl⟩ |
    ⟨hsum, _, rfl | ⟨payload, rfl⟩⟩
  · simp [hid, Peer.sumsSent_send, Peer.checkSum]
  · have hkept : (peer.checkLogin msg).sumsSent = peer.sumsSent :=
      (Peer.sumsSent_closeIf _ _).trans (Peer.sumsSent_closeIf _ _)
    simp [hid, Peer.sumsSent_send, hkept, hlogin, reqLogin, reqSum]
  · simp [hsum]
  · simp [hsum, Peer.sumsSent_send, hpong]

end Peers

section Runs

variable {server : Server} {endian : Endian} {history history' : History} {msg : List UInt8}

/-- A peer that is logged in has an accepted login behind it, or its socket was shut down. -/
def LoggedIn (endian : Endian) (history : History) : Prop :=
  history.peer.isLogined = true →
    (∃ earlier ∈ history.seen, AcceptedLogin endian earlier) ∨
      .shutdown ∈ history.peer.actions

theorem mem_actions_of_dispatch {peer peer' : Peer} {action : Action}
    (h : dispatch endian peer msg server = .ok peer') (hmem : action ∈ peer.actions) :
    action ∈ peer'.actions := by
  rcases dispatch_cases h with ⟨_, payload, rfl⟩ | ⟨_, payload, rfl⟩ |
    ⟨_, _, rfl | ⟨payload, rfl⟩⟩
  · simp [Peer.send, Peer.checkSum, Peer.actions_closeIf, hmem]
  · simp [Peer.send, Peer.checkLogin, Peer.actions_closeIf, hmem]
  · exact hmem
  · simp [Peer.send, hmem]

/-- A message keeps `LoggedIn`: a login that should be refused shuts the socket down. -/
theorem LoggedIn.receive (hinv : LoggedIn endian history)
    (h : DemoServer.receive server endian history msg = .ok history') :
    LoggedIn endian history' := by
  obtain ⟨peer', hdispatch, hhistory⟩ := bind_eq_ok.1 h
  cases hhistory
  intro hlogined
  have hkept (heq : peer'.isLogined = history.peer.isLogined) :
      (∃ earlier ∈ history.seen ++ [msg], AcceptedLogin endian earlier) ∨
        .shutdown ∈ peer'.actions := by
    refine (hinv (heq.symm.trans hlogined)).imp ?_ (mem_actions_of_dispatch hdispatch)
    rintro ⟨earlier, hmem, haccepted⟩
    exact ⟨earlier, List.mem_append_left _ hmem, haccepted⟩
  rcases dispatch_cases hdispatch with ⟨_, payload, heq⟩ | ⟨hid, payload, heq⟩ |
    ⟨_, _, heq | ⟨payload, heq⟩⟩
  · exact hkept (by simp [heq, Peer.send, Peer.checkSum])
  · by_cases haccepted : (cString msg 20).length < 16 ∧ (cString msg 36).length < 32
    · exact .inl ⟨msg, List.mem_append_right _ List.mem_cons_self, hid, haccepted⟩
    · right
      rw [not_and_or, Nat.not_lt, Nat.not_lt] at haccepted
      rw [heq]
      rcases haccepted with hlong | hlong
      · simp [Peer.send, Peer.checkLogin, Peer.actions_closeIf, hlong]
      · simp [Peer.send, Peer.checkLogin, Peer.actions_closeIf, hlong]
  · exact hkept (by rw [heq])
  · exact hkept (by simp [heq, Peer.send])

/-- The message is answered with a sum. -/
def Answered (server : Server) (endian : Endian) (history : History) (msg : List UInt8) : Prop :=
  ∃ history', receive server endian history msg = .ok history' ∧
    history.peer.sumsSent < history'.peer.sumsSent

/-- The message is a sum request with all the numbers that it announces. -/
def CompleteSum (endian : Endian) (msg : List UInt8) : Prop :=
  IsReqSum endian msg ∧ 24 + 4 * wordAt endian msg 20 ≤ msg.length

/-- A sum request that may not be answered is answered after the socket was shut down. -/
def ShutdownFirst (server : Server) (endian : Endian) (history : History) (msg : List UInt8) :
    Prop :=
  ¬ Allowed endian msg history.seen → ∀ history', receive server endian history msg = .ok history' →
    history.peer.sumsSent < history'.peer.sumsSent →
      ∃ before answer, history'.peer.actions = before ++ [.send answer] ∧ .shutdown ∈ before

/-- A sum request is handled exactly if all its numbers are in the message. -/
theorem dispatch_sum_iff {peer : Peer} (hsum : IsReqSum endian msg) :
    (∃ peer', dispatch endian peer msg server = .ok peer') ↔
      24 + 4 * wordAt endian msg 20 ≤ msg.length := by
  have hping : ¬ wordAt endian msg 8 = ping.toNat := hsum ▸ by decide
  have hlogin : ¬ wordAt endian msg 8 = reqLogin.toNat := hsum ▸ by decide
  rw [IsReqSum] at hsum
  simp only [dispatch, bind_eq_ok, readWord_eq_ok_iff]
  constructor
  · rintro ⟨peer', _, ⟨_, rfl⟩, h⟩
    rw [if_neg hping, if_neg hlogin, if_pos hsum] at h
    exact (onReqSum_ok_iff.1 ⟨peer', h⟩).2
  · intro hlen
    have hok : ∃ peer', onReqSum endian peer msg = .ok peer' :=
      onReqSum_ok_iff.2 ⟨by omega, hlen⟩
    obtain ⟨peer', h⟩ := hok
    refine ⟨peer', _, ⟨by omega, rfl⟩, ?_⟩
    rw [if_neg hping, if_neg hlogin, if_pos hsum]
    exact h

/-- A message is answered with a sum exactly if it is a complete sum request. -/
theorem answered_iff (server : Server) (endian : Endian) (history : History) (msg : List UInt8) :
    Answered server endian history msg ↔ CompleteSum endian msg := by
  constructor
  · rintro ⟨history', hreceive, hsent⟩
    obtain ⟨peer', hdispatch, hhistory⟩ := bind_eq_ok.1 hreceive
    cases hhistory
    have hsum := (sum_answered_iff hdispatch).1 hsent
    exact ⟨hsum, (dispatch_sum_iff hsum).1 ⟨peer', hdispatch⟩⟩
  · rintro ⟨hsum, hlen⟩
    obtain ⟨peer', hdispatch⟩ := (dispatch_sum_iff hsum).2 hlen
    refine ⟨⟨history.seen ++ [msg], peer'⟩, ?_, (sum_answered_iff hdispatch).2 hsum⟩
    rw [receive, hdispatch]
    rfl

/-- The socket is shut down before a request that should be refused is answered. -/
theorem LoggedIn.shutdownFirst (hinv : LoggedIn endian history) (msg : List UInt8) :
    ShutdownFirst server endian history msg := by
  intro hnot history' hreceive hsent
  obtain ⟨peer', hdispatch, hhistory⟩ := bind_eq_ok.1 hreceive
  cases hhistory
  have hsum : wordAt endian msg 8 = reqSum.toNat := (sum_answered_iff hdispatch).1 hsent
  rcases dispatch_cases hdispatch with ⟨_, payload, rfl⟩ | ⟨hid, _⟩ | ⟨hid, _⟩
  · refine ⟨_, _, rfl, ?_⟩
    rw [Peer.checkSum, Peer.actions_closeIf, Peer.actions_closeIf]
    by_cases hlong : 16 < wordAt endian msg 20
    · simp [hlong]
    · cases hlogined : history.peer.isLogined with
      | false => simp
      | true =>
        rcases hinv hlogined with haccepted | hshutdown
        · exact absurd ⟨haccepted, Nat.le_of_not_lt hlong⟩ hnot
        · simp [hshutdown]
  · rw [hsum] at hid
    exact absurd hid (by decide)
  · exact absurd hsum hid

/-- For both servers and every sequence of messages: only sum requests that may be answered are
answered exactly if all sum requests that have the numbers they announce may be answered. In every
run a request that should be refused is answered after the socket was shut down. -/
theorem sum_only_if_allowed_iff (server : Server) (endian : Endian) (msgs : List (List UInt8)) :
    (Along (receive server endian)
        (fun history msg => Answered server endian history msg → Allowed endian msg history.seen)
        .start msgs ↔
      Along (receive server endian)
        (fun history msg => CompleteSum endian msg → Allowed endian msg history.seen)
        .start msgs) ∧
    Along (receive server endian) (ShutdownFirst server endian) .start msgs := by
  have hinv : Throughout (receive server endian) (LoggedIn endian) .start msgs :=
    throughout_of_step (fun _ _ _ h hreceive => h.receive hreceive)
      (fun hlogined => by cases hlogined) msgs
  constructor
  · refine hinv.along_congr fun history msg _ => ?_
    rw [answered_iff]
  · exact hinv.along fun _ msg h => h.shutdownFirst msg

end Runs

/-- A request to add seventeen zeroes. -/
def sumRequest : List UInt8 :=
  frameOf reqSum ([9, 0, 0, 0, 17, 0, 0, 0] ++ List.replicate 68 0)

/-- The first message of a client asks for the sum of seventeen numbers. Both servers ask twice
for a close, add the numbers and send the answer. -/
theorem sum_without_login_answered :
    ¬ Allowed .little sumRequest [] ∧
    (dispatch .little .start sumRequest .single).map Peer.actions =
      .ok [.shutdown, .shutdown, .send ⟨rspSum, [9, 0, 0, 0, 0, 0, 0, 0]⟩] ∧
    (dispatch .little .start sumRequest .worker).map Peer.actions =
      .ok [.shutdown, .shutdown, .send ⟨rspSum, [9, 0, 0, 0, 0, 0, 0, 0]⟩] := by
  refine ⟨?_, by decide +kernel, by decide +kernel⟩
  rintro ⟨⟨_, hmem, _⟩, _⟩
  cases hmem

end HakunaMatata.DemoServer
