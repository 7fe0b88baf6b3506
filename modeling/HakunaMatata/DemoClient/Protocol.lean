import HakunaMatata.CodecBytes.RoundTrip
import HakunaMatata.DemoClient.Model
import HakunaMatata.DemoServer.Callbacks

/-!
# Requests and answers of the demo protocol

`Request` is what a client asks for, and `Request.answer` what it should be told, with the sum of
the numbers as an integer. `serve_request` says that the callback of the server turns the message
of a request into the message of its answer, and `dispatch_answer` that the client reports this
answer. The sum of a request of the client does not overflow.
-/

namespace HakunaMatata.DemoClient

open Base CodecBytes CodecChain DemoServer

/-- What the client asks for. -/
inductive Request where
  | login (reqId : UInt32)
  | ping (sec : UInt64) (nsec : UInt32)
  | sum (reqId : UInt32) (numbers : List Int)
  deriving DecidableEq, Repr

/-- What the server answers. -/
inductive Answer where
  | login (reqId : UInt32)
  | pong (sec : UInt64) (nsec : UInt32)
  | sum (reqId : UInt32) (total : Int)
  deriving DecidableEq, Repr

/-- The sum of some numbers. -/
def total (numbers : List Int) : Int :=
  numbers.foldl (· + ·) 0

/-- The answer to a request. -/
def Request.answer : Request → Answer
  | .login reqId => .login reqId
  | .ping sec nsec => .pong sec nsec
  | .sum reqId numbers => .sum reqId (total numbers)

/-- What the client reports about an answer. -/
def Answer.report : Answer → Report
  | .login _ => .loginSuccess
  | .pong sec nsec => .pong sec.toNat nsec.toNat
  | .sum reqId total => .sum reqId.toNat total

/-- The request asks for a login. -/
def Request.isLogin : Request → Bool
  | .login _ => true
  | _ => false

/-- The id that the client gave to a request. -/
def Request.reqId? : Request → Option UInt32
  | .login reqId => some reqId
  | .ping _ _ => none
  | .sum reqId _ => some reqId

/-- At most ten numbers are to be added, and they are between -100 and 100. -/
def Request.Small : Request → Prop
  | .sum _ numbers => numbers.length ≤ 10 ∧ ∀ number ∈ numbers, -100 ≤ number ∧ number ≤ 100
  | _ => True

section Messages

variable (endian : Endian)

/-- The message of a request. -/
def Request.message : Request → Message
  | .login reqId => loginMessage endian reqId
  | .ping sec nsec => pingMessage endian sec nsec
  | .sum reqId numbers => sumMessage endian reqId numbers

/-- The message of an answer. -/
def Answer.message : Answer → Message
  | .login reqId => ⟨rspLogin, storeWord endian 4 reqId.toNat ++ [1]⟩
  | .pong sec nsec =>
    ⟨DemoServer.pong, storeWord endian 8 sec.toNat ++ storeWord endian 4 nsec.toNat⟩
  | .sum reqId total =>
    ⟨rspSum, storeWord endian 4 reqId.toNat ++
      storeWord endian 4 (BitVec.ofInt 32 total).toNat⟩

end Messages

/-! ## Reading a message -/

section Reading

variable {host : Host} {endian : Endian} {id : UInt32}

theorem drop_encoded (host : Host) (message : Message) (offset : Nat) :
    (message.encoded host).drop (16 + offset) = message.payload.drop offset := by
  have hheader : ((message.header host).write host).length = 16 :=
    MsgHdr.length_write host _ rfl rfl
  rw [message.encoded_eq host, ← hheader, List.drop_length_add_append]

theorem bytesAt_encoded {message : Message} {offset count : Nat} {bytes : List UInt8}
    (h : bytesAt message.payload offset count = .ok bytes) :
    bytesAt (message.encoded host) (16 + offset) count = .ok bytes := by
  obtain ⟨hle, rfl⟩ := bytesAt_eq_ok_iff.mp h
  refine bytesAt_eq_ok_iff.mpr ⟨?_, by rw [drop_encoded]⟩
  rw [message.length_encoded host, headerSize]
  omega

theorem bytesAt_msgId (host : Host) (message : Message) :
    bytesAt (message.encoded host) 8 4 = .ok (storeWord host.endian 4 message.msgId.toNat) := by
  rw [message.encoded_eq host, MsgHdr.write, List.append_assoc, List.append_assoc]
  exact bytesAt_append rfl (length_storeWord _ _ _) _

theorem loadWord_uint32 (endian : Endian) (n : UInt32) :
    loadWord endian (storeWord endian 4 n.toNat) = n.toNat :=
  loadWord_storeWord endian n.toNat_lt

theorem loadWord_uint64 (endian : Endian) (n : UInt64) :
    loadWord endian (storeWord endian 8 n.toNat) = n.toNat :=
  loadWord_storeWord endian n.toNat_lt

theorem loadWord_bitVec (endian : Endian) (v : BitVec 32) :
    loadWord endian (storeWord endian 4 v.toNat) = v.toNat :=
  loadWord_storeWord endian v.isLt

theorem readWord_msgId (host : Host) (message : Message) :
    readWord host.endian (message.encoded host) 8 = .ok message.msgId.toNat := by
  rw [readWord, bytesAt_msgId, ok_bind, loadWord_uint32]
  rfl

theorem bytesAt_first (count n : Nat) (b : List UInt8) :
    bytesAt (Message.encoded host ⟨id, storeWord endian count n ++ b⟩) 16 count =
      .ok (storeWord endian count n) := by
  have hread : bytesAt (Message.mk id (storeWord endian count n ++ b)).payload 0 count = _ :=
    @bytesAt_append [] _ 0 count rfl (length_storeWord _ _ _) b
  exact bytesAt_encoded hread

theorem bytesAt_second (offset count m n : Nat) :
    bytesAt (Message.encoded host ⟨id, storeWord endian offset m ++ storeWord endian count n⟩)
      (16 + offset) count = .ok (storeWord endian count n) := by
  refine bytesAt_encoded ?_
  have hread := bytesAt_append (length_storeWord endian offset m) (length_storeWord endian count n)
    []
  rwa [List.append_nil] at hread

end Reading

/-! ## The server -/

section Server

variable {host : Host} {peer : Peer}

/-- The peer of the server after it has answered a request. -/
def served (endian : Endian) (peer : Peer) (request : Request) : Peer :=
  { peer with
    userId := if request.isLogin then userId else peer.userId
    isLogined := peer.isLogined || request.isLogin }.send (request.answer.message endian)

theorem length_numberBytes (endian : Endian) (numbers : List Int) :
    (numbers.map (numberBytes endian)).flatten.length = 4 * numbers.length := by
  induction numbers with
  | nil => rfl
  | cons number numbers ih =>
    rw [List.map_cons, List.flatten_cons, List.length_append, ih, numberBytes, length_storeWord,
      List.length_cons]
    omega

/-- The loop over the array adds the numbers that are left. -/
theorem sumLoop_numbers (host : Host) (reqId : UInt32) (before numbers : List Int) (sum : Int) :
    sumLoop host.endian ((sumMessage host.endian reqId (before ++ numbers)).encoded host)
        numbers.length before.length (BitVec.ofInt 32 sum) =
      .ok (BitVec.ofInt 32 (numbers.foldl (· + ·) sum)) := by
  induction numbers generalizing before sum with
  | nil => rfl
  | cons number numbers ih =>
    have hread : bytesAt (sumMessage host.endian reqId (before ++ number :: numbers)).payload
        (8 + 4 * before.length) 4 = .ok (numberBytes host.endian number) := by
      rw [sumMessage, List.map_append, List.map_cons, List.flatten_append, List.flatten_cons,
        ← List.append_assoc, ← List.append_assoc]
      refine bytesAt_append ?_ (length_storeWord _ _ _) _
      simp only [List.length_append, length_storeWord, length_numberBytes]
    have hword : readWord host.endian
        ((sumMessage host.endian reqId (before ++ number :: numbers)).encoded host)
        (24 + 4 * before.length) = .ok (BitVec.ofInt 32 number).toNat := by
      rw [show 24 + 4 * before.length = 16 + (8 + 4 * before.length) by omega, readWord,
        bytesAt_encoded hread, ok_bind, numberBytes, loadWord_bitVec]
      rfl
    have hrest := ih (before ++ [number]) (sum + number)
    rw [List.append_assoc, List.length_append] at hrest
    rw [List.length_cons, sumLoop, hword, ok_bind, BitVec.ofNat_toNat, BitVec.setWidth_eq,
      ← BitVec.ofInt_add]
    exact hrest

theorem onPing_request (host : Host) (peer : Peer) (sec : UInt64) (nsec : UInt32) :
    onPing peer ((pingMessage host.endian sec nsec).encoded host) =
      .ok (peer.send ((Answer.pong sec nsec).message host.endian)) := by
  rw [onPing, pingMessage, bytesAt_first, ok_bind, bytesAt_second 8]
  rfl

theorem onLogin_request (host : Host) (peer : Peer) (reqId : UInt32) :
    onLogin peer ((loginMessage host.endian reqId).encoded host) .single =
      .ok ({ peer with userId := userId, isLogined := true }.send
        ((Answer.login reqId).message host.endian)) := by
  have huser : ((loginMessage host.endian reqId).encoded host).drop 20 =
      strncpy 16 userId ++ strncpy 32 password := by
    rw [show 20 = 16 + 4 from rfl, drop_encoded, loginMessage]
    exact List.drop_left' (length_storeWord _ _ _)
  have hpassword : ((loginMessage host.endian reqId).encoded host).drop 36 =
      strncpy 32 password := by
    rw [show 36 = 20 + 16 from rfl, ← List.drop_drop, huser]
    rfl
  have huserLen : strlen ((loginMessage host.endian reqId).encoded host) 20 = .ok 3 := by
    rw [strlen, cString, huser]
    decide
  have hpasswordLen : strlen ((loginMessage host.endian reqId).encoded host) 36 = .ok 6 := by
    rw [strlen, cString, hpassword]
    decide
  have huserId : cString ((loginMessage host.endian reqId).encoded host) 20 = userId := by
    rw [cString, huser]
    decide
  have hreqId : bytesAt ((loginMessage host.endian reqId).encoded host) 16 4 =
      .ok (storeWord host.endian 4 reqId.toNat) := bytesAt_first _ _ _
  rw [onLogin, login, huserLen, ok_bind, hpasswordLen, ok_bind, hreqId, huserId]
  rfl

/-- `onReqSum` answers a peer that has logged in with the sum. -/
theorem onReqSum_request (host : Host) {peer : Peer} (hlogined : peer.isLogined = true)
    (reqId : UInt32) {numbers : List Int} (hlen : numbers.length ≤ 10) :
    onReqSum host.endian peer ((sumMessage host.endian reqId numbers).encoded host) =
      .ok (peer.send ((Answer.sum reqId (total numbers)).message host.endian)) := by
  have harrLen : readWord host.endian ((sumMessage host.endian reqId numbers).encoded host) 20 =
      .ok numbers.length := by
    have hread : bytesAt (sumMessage host.endian reqId numbers).payload 4 4 =
        .ok (storeWord host.endian 4 numbers.length) :=
      bytesAt_append (length_storeWord _ _ _) (length_storeWord _ _ _) _
    rw [show 20 = 16 + 4 from rfl, readWord, bytesAt_encoded hread, ok_bind,
      loadWord_storeWord host.endian (by omega)]
    rfl
  have hreqId : bytesAt ((sumMessage host.endian reqId numbers).encoded host) 16 4 =
      .ok (storeWord host.endian 4 reqId.toNat) := bytesAt_first _ _ _
  have hsum := sumLoop_numbers host reqId [] numbers 0
  have hfits : (decide (16 < numbers.length)) = false := by
    rw [decide_eq_false_iff_not]
    omega
  rw [onReqSum, harrLen, ok_bind, hreqId, hfits]
  simp only [Peer.closeIf, Bool.false_eq_true, if_false, hlogined, Bool.not_true, ok_bind]
  exact congrArg (· >>= _) hsum

/-- The server answers a request of a peer that has logged in, and a login. -/
theorem serve_request (host : Host) {request : Request} (hsmall : request.Small)
    (hlogined : peer.isLogined = true ∨ request.isLogin = true) :
    DemoServer.dispatch host.endian peer ((request.message host.endian).encoded host) .single =
      .ok (served host.endian peer request) := by
  rw [DemoServer.dispatch, readWord_msgId, ok_bind]
  cases request with
  | login reqId =>
    show onLogin peer _ .single = _
    refine (onLogin_request host peer reqId).trans ?_
    simp [served, Request.isLogin, Request.answer]
  | ping sec nsec =>
    show onPing peer _ = _
    refine (onPing_request host peer sec nsec).trans ?_
    simp [served, Request.isLogin, Request.answer]
  | sum reqId numbers =>
    show onReqSum host.endian peer _ = _
    have hlogined : peer.isLogined = true := by simpa [Request.isLogin] using hlogined
    refine (onReqSum_request host hlogined reqId hsmall.1).trans ?_
    simp [served, Request.isLogin, Request.answer]

end Server

/-! ## The client -/

section Client

variable {host : Host}

/-- The client after it was told the answer to a request. -/
def told (peer : ClientPeer) (request : Request) : ClientPeer :=
  { peer with isLogined := peer.isLogined || request.isLogin }.report request.answer.report

theorem callbackOf_encoded (host : Host) {message : Message} {callback : Callback}
    (h : message.msgId.toNat < registry.totalMsg ∧
      load registry.callbacks message.msgId.toNat = .ok (some callback)) :
    callbackOf host.endian registry (message.encoded host) = .ok (some callback) := by
  rw [callbackOf, bytesAt_msgId, ok_bind, loadWord_uint32, ← h.2]
  exact if_pos h.1

/-- A sum lies between the bounds for its numbers. -/
theorem foldl_bounds {numbers : List Int} (h : ∀ number ∈ numbers, -100 ≤ number ∧ number ≤ 100)
    (sum : Int) : sum - 100 * numbers.length ≤ numbers.foldl (· + ·) sum ∧
      numbers.foldl (· + ·) sum ≤ sum + 100 * numbers.length := by
  induction numbers generalizing sum with
  | nil => simp
  | cons number numbers ih =>
    have hfirst := h number List.mem_cons_self
    have hrest := ih (fun n hn => h n (List.mem_cons_of_mem _ hn)) (sum + number)
    rw [List.foldl_cons, List.length_cons]
    omega

/-- The sum that the client asks for fits a signed 32-bit integer. -/
theorem toInt_total {numbers : List Int} (hlen : numbers.length ≤ 10)
    (h : ∀ number ∈ numbers, -100 ≤ number ∧ number ≤ 100) :
    (BitVec.ofInt 32 (total numbers)).toInt = total numbers := by
  have hbounds := foldl_bounds h 0
  rw [BitVec.toInt_ofInt]
  unfold total
  refine Int.bmod_eq_of_le ?_ ?_
  · omega
  · omega

theorem onPong_answer (host : Host) (peer : ClientPeer) (sec : UInt64) (nsec : UInt32) :
    onPong host.endian peer (((Answer.pong sec nsec).message host.endian).encoded host) =
      .ok (peer.report (.pong sec.toNat nsec.toNat)) := by
  rw [onPong, Answer.message, bytesAt_first, ok_bind, bytesAt_second 8, ok_bind, loadWord_uint64,
    loadWord_uint32]
  rfl

theorem onRspLogin_answer (host : Host) (peer : ClientPeer) (reqId : UInt32) :
    onRspLogin peer (((Answer.login reqId).message host.endian).encoded host) =
      .ok ({ peer with isLogined := true }.report .loginSuccess) := by
  have hresult : load (((Answer.login reqId).message host.endian).encoded host) 20 = .ok 1 := by
    have hdrop : (((Answer.login reqId).message host.endian).encoded host).drop (16 + 4) =
        [1] := by
      rw [drop_encoded]
      exact List.drop_left' (length_storeWord _ _ _)
    rw [load, ← Nat.add_zero 20, ← List.getElem?_drop, hdrop]
    rfl
  rw [onRspLogin, hresult]
  rfl

theorem onRspSum_answer (host : Host) (peer : ClientPeer) (reqId : UInt32) (sum : Int) :
    onRspSum host.endian peer (((Answer.sum reqId sum).message host.endian).encoded host) =
      .ok (peer.report (.sum reqId.toNat (BitVec.ofInt 32 sum).toInt)) := by
  rw [onRspSum, Answer.message, readWord, bytesAt_first, ok_bind, readWord, bytesAt_second 4,
    ok_bind, loadWord_uint32, loadWord_bitVec]
  simp only [pure, Except.pure, ok_bind, BitVec.ofNat_toNat, BitVec.setWidth_eq]

/-- The client reports the answer to a request, and it has logged in once a login is answered. -/
theorem dispatch_answer (host : Host) (peer : ClientPeer) {request : Request}
    (hsmall : request.Small) :
    dispatch host.endian peer ((request.answer.message host.endian).encoded host) =
      .ok (told peer request) := by
  unfold dispatch
  cases request with
  | login reqId =>
    have hcallback : rspLogin.toNat < registry.totalMsg ∧
        load registry.callbacks rspLogin.toNat = .ok (some .onRspLogin) := by decide
    rw [callbackOf_encoded host hcallback, ok_bind]
    refine (onRspLogin_answer host peer reqId).trans ?_
    simp [told, Request.isLogin, Request.answer, Answer.report]
  | ping sec nsec =>
    have hcallback : pong.toNat < registry.totalMsg ∧
        load registry.callbacks pong.toNat = .ok (some .onPong) := by decide
    rw [callbackOf_encoded host hcallback, ok_bind]
    refine (onPong_answer host peer sec nsec).trans ?_
    simp [told, Request.isLogin, Request.answer, Answer.report]
  | sum reqId numbers =>
    have hcallback : rspSum.toNat < registry.totalMsg ∧
        load registry.callbacks rspSum.toNat = .ok (some .onRspSum) := by decide
    rw [callbackOf_encoded host hcallback, ok_bind]
    refine (onRspSum_answer host peer reqId (total numbers)).trans ?_
    rw [toInt_total hsmall.1 hsmall.2]
    simp [told, Request.isLogin, Request.answer, Answer.report]

end Client

end HakunaMatata.DemoClient
