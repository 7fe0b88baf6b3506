import HakunaMatata.DemoClient.Conversation

/-!
# Client and server of a conversation agree

The requests of the client are split into those it knows the answer to, those that the server has
answered, and those that the server has not seen. `Agreement` says what this split determines:
the actions of both sides, the log of the client, and what is in the buffers and on the wires.
Every event keeps it (`Agrees.step`), and so does every run.
-/

namespace HakunaMatata.DemoClient

open Base CodecBytes CodecChain DemoServer

/-- The bytes of a request. -/
def Request.frame (host : Host) (request : Request) : List UInt8 :=
  (request.message host.endian).encoded host

/-- The bytes of the answer to a request. -/
def Request.answerFrame (host : Host) (request : Request) : List UInt8 :=
  (request.answer.message host.endian).encoded host

theorem length_frame_le (host : Host) {request : Request} (hsmall : request.Small) :
    (request.frame host).length ≤ 68 := by
  rw [Request.frame, Message.length_encoded, headerSize]
  cases request with
  | login reqId => simp [Request.message, loginMessage, strncpy, userId, password]
  | ping sec nsec => simp [Request.message, pingMessage]
  | sum reqId numbers =>
    have hlen := hsmall.1
    simp only [Request.message, sumMessage, List.length_append, length_storeWord,
      length_numberBytes]
    omega

theorem length_answerFrame_le (host : Host) (request : Request) :
    (request.answerFrame host).length ≤ 68 := by
  rw [Request.answerFrame, Message.length_encoded, headerSize]
  cases request with
  | login reqId => simp [Request.answer, Answer.message]
  | ping sec nsec => simp [Request.answer, Answer.message]
  | sum reqId numbers => simp [Request.answer, Answer.message]

/-- The codec takes the messages of the protocol, which are far below its limit. -/
theorem verdict_of_le {host : Host} {message : Message}
    (hlen : (message.encoded host).length ≤ 68) :
    verdict (codec host) (message.encoded host) = .take (message.encoded host).length := by
  rw [Message.length_encoded] at hlen
  have hlimit : 68 ≤ (codec host).msgLenLimit.toNat := by
    show 68 ≤ (32 * 1024 : UInt32).toNat
    decide
  exact @verdict_encoded (codec host) message (Nat.le_trans hlen hlimit)

theorem verdict_frame (host : Host) {request : Request} (hsmall : request.Small) :
    verdict (codec host) (request.frame host) = .take (request.frame host).length :=
  verdict_of_le (length_frame_le host hsmall)

theorem verdict_answerFrame (host : Host) (request : Request) :
    verdict (codec host) (request.answerFrame host) = .take (request.answerFrame host).length :=
  verdict_of_le (length_answerFrame_le host request)

theorem encoded_pos (host : Host) (message : Message) : 0 < (message.encoded host).length := by
  rw [Message.length_encoded, headerSize]
  omega

theorem verdict_nil (host : Host) : verdict (codec host) [] = .wait :=
  rfl

/-! ## What the peers do with whole requests -/

section Peers

variable {host : Host} {requests : List Request}

theorem foldlM_dispatch (hsmall : ∀ request ∈ requests, request.Small) (peer : ClientPeer) :
    (requests.map (Request.answerFrame host)).foldlM (dispatch host.endian) peer =
      .ok (requests.foldl told peer) := by
  induction requests generalizing peer with
  | nil => rfl
  | cons request requests ih =>
    rw [List.map_cons, List.foldlM_cons, Request.answerFrame,
      dispatch_answer host peer (hsmall request List.mem_cons_self), ok_bind, List.foldl_cons]
    exact ih (fun r hr => hsmall r (List.mem_cons_of_mem _ hr)) _

theorem foldl_told (requests : List Request) (peer : ClientPeer) :
    requests.foldl told peer =
      { peer with
        isLogined := peer.isLogined || requests.any Request.isLogin
        log := peer.log ++ requests.map fun request => request.answer.report } := by
  induction requests generalizing peer with
  | nil => simp
  | cons request requests ih =>
    rw [List.foldl_cons, ih]
    simp [told, ClientPeer.report, Bool.or_assoc]

/-- The session of the server after it has answered a request. -/
def sessionServed (endian : Endian) (now : Int) (session : ServerSession) (request : Request) :
    ServerSession :=
  ⟨served endian session.peer request,
    match request with
    | .ping _ _ => now
    | _ => session.lastActived⟩

/-- The server answers the requests one after the other, if a login comes first. -/
theorem foldlM_serve (hsmall : ∀ request ∈ requests, request.Small) (now : Int)
    (session : ServerSession)
    (hlogined : session.peer.isLogined = true ∨ ∀ request ∈ requests.head?,
      request.isLogin = true) :
    (requests.map (Request.frame host)).foldlM (serve host.endian now) session =
      .ok (requests.foldl (sessionServed host.endian now) session) := by
  induction requests generalizing session with
  | nil => rfl
  | cons request requests ih =>
    have hfirst : session.peer.isLogined = true ∨ request.isLogin = true :=
      hlogined.imp_right fun h => h request rfl
    have hserve : serve host.endian now session (request.frame host) =
        .ok (sessionServed host.endian now session request) := by
      rw [serve, Request.frame, readWord_msgId, ok_bind,
        serve_request host (hsmall request List.mem_cons_self) hfirst, ok_bind]
      cases request with
      | login reqId => rfl
      | ping sec nsec => rfl
      | sum reqId numbers => rfl
    rw [List.map_cons, List.foldlM_cons, hserve, ok_bind, List.foldl_cons]
    refine ih (fun r hr => hsmall r (List.mem_cons_of_mem _ hr)) _ (.inl ?_)
    show (session.peer.isLogined || request.isLogin) = true
    rwa [Bool.or_eq_true]

theorem foldl_sessionServed (endian : Endian) (now : Int) (requests : List Request)
    (session : ServerSession) :
    (requests.foldl (sessionServed endian now) session).peer.isLogined =
        (session.peer.isLogined || requests.any Request.isLogin) ∧
      (requests.foldl (sessionServed endian now) session).peer.actions =
        session.peer.actions ++ requests.map fun request =>
          .send (request.answer.message endian) := by
  induction requests generalizing session with
  | nil => simp
  | cons request requests ih =>
    obtain ⟨hlogined, hactions⟩ := ih (sessionServed endian now session request)
    rw [List.foldl_cons, hlogined, hactions]
    simp [sessionServed, served, Peer.send, Bool.or_assoc]

/-- Messages that the socket accepts whole are on the wire afterwards. -/
theorem foldl_perform {ι : Type} {message : ι → Message} {items : List ι} {accepts : Nat → Nat}
    (h : ∀ item ∈ items, ∀ i, ((message item).encoded host).length ≤ accepts i)
    (channel : Channel) :
    ((items.map fun item => Action.send (message item)).foldl
        (Channel.perform host accepts) channel).wire =
      channel.wire ++ (items.map fun item => (message item).encoded host).flatten := by
  induction items generalizing channel with
  | nil => simp
  | cons item items ih =>
    rw [List.map_cons, List.foldl_cons,
      ih (fun i hi => h i (List.mem_cons_of_mem _ hi)), Channel.perform, Channel.write,
      List.take_of_length_le (h item List.mem_cons_self _), List.map_cons, List.flatten_cons,
      List.append_assoc]

/-- The requests that a timer makes. -/
def timerRequests (peer : ClientPeer) (sec : UInt64) (nsec : UInt32) (rand : Nat → Nat) :
    List Request :=
  .ping sec nsec :: if peer.isLogined then [.sum peer.reqId (randomNumbers rand)] else []

theorem onTimer_eq (endian : Endian) (peer : ClientPeer) (sec : UInt64) (nsec : UInt32)
    (rand : Nat → Nat) :
    onTimer endian peer sec nsec rand =
      { peer with
        reqId := if peer.isLogined then peer.reqId + 1 else peer.reqId
        actions := peer.actions ++ (timerRequests peer sec nsec rand).map fun request =>
          .send (request.message endian) } := by
  cases hlogined : peer.isLogined with
  | false =>
    simp [onTimer, timerRequests, ClientPeer.send, hlogined, Request.message]
  | true =>
    simp [onTimer, timerRequests, ClientPeer.send, hlogined, Request.message]

theorem small_randomNumbers (reqId : UInt32) (rand : Nat → Nat) :
    (Request.sum reqId (randomNumbers rand)).Small := by
  refine ⟨?_, fun number hnumber => ?_⟩
  · rw [randomNumbers, List.length_map, List.length_range]
    omega
  · obtain ⟨i, _, rfl⟩ := List.mem_map.mp hnumber
    omega

/-- What a timer asks for: no login, and numbers whose sum fits. -/
theorem mem_timerRequests {peer : ClientPeer} {sec : UInt64} {nsec : UInt32} {rand : Nat → Nat}
    {request : Request} (h : request ∈ timerRequests peer sec nsec rand) :
    request.Small ∧ request.isLogin = false := by
  unfold timerRequests at h
  rcases List.mem_cons.mp h with rfl | hsum
  · exact ⟨trivial, rfl⟩
  · split at hsum
    · rw [List.mem_singleton.mp hsum]
      exact ⟨small_randomNumbers _ _, rfl⟩
    · exact absurd hsum List.not_mem_nil

theorem ids_timerRequests (peer : ClientPeer) (sec : UInt64) (nsec : UInt32) (rand : Nat → Nat) :
    (timerRequests peer sec nsec rand).filterMap Request.reqId? =
      if peer.isLogined then [peer.reqId] else [] := by
  unfold timerRequests
  split
  · rfl
  · rfl

end Peers

/-! ## What arrives -/

section Arrival

variable {β : Type} {sockets : Sockets} {buffer : BytesBuffer β} {content : β → List UInt8}

/-- When the next bytes of a stream of messages arrive, the peer gets the first of the messages,
and the others are still under way. -/
theorem handleMessage_of_transit (hfifo : IdealFifo buffer content) {ι π : Type}
    (dispatch : π → List UInt8 → Except Fault π) {frame : ι → List UInt8} {items : List ι}
    (hframes : ∀ item ∈ items,
      verdict (codec sockets.host) (frame item) = .take (frame item).length)
    (hpos : ∀ item ∈ items, 0 < (frame item).length) {buf : β} {arrived wire : List UInt8}
    (h : Transit (verdict (codec sockets.host)) frame items (content buf) (arrived ++ wire)) :
    ∃ done next buf', items = done ++ next ∧
      Transit (verdict (codec sockets.host)) frame next (content buf') wire ∧
      ∀ peer peer', (done.map frame).foldlM dispatch peer = .ok peer' →
        handleMessage sockets buffer dispatch peer buf arrived =
          .ok (true, peer', some buf', []) := by
  obtain ⟨done, next, rest, hitems, hdrains, htransit⟩ :=
    h.arrive (verdict_stable _) (verdict_bounded _) (verdict_nil _) hframes
  -- each of the frames has at least one byte, so the fuel is enough
  have hcut : content buf ++ arrived = (done.map frame).flatten ++ rest := by
    have hstream := h.stream
    rw [hitems, List.map_append, List.flatten_append, ← htransit.stream, ← List.append_assoc,
      ← List.append_assoc] at hstream
    exact List.append_cancel_right hstream
  have hcount : (done.map frame).length ≤ (done.map frame).flatten.length := by
    refine length_le_flatten fun bytes hbytes => ?_
    obtain ⟨item, hitem, rfl⟩ := List.mem_map.mp hbytes
    exact hpos item (hitems ▸ List.mem_append_left _ hitem)
  have hlen := congrArg List.length hcut
  rw [List.length_append, List.length_append] at hlen
  have hreadable := hfifo.readable buf
  have hunit : (0 : Int) < (codec sockets.host).recvUnit := by
    show (0 : Int) < (4 * 1024 : UInt32).toBitVec.toInt
    decide
  obtain ⟨buf', hrest, hdecode⟩ := @decode_of_drains β (codec sockets.host) buffer content none
    hfifo hunit nofun buf arrived [] _ true rest hdrains
    (buffer.readable buf + arrived.length + 1) (by omega) (by omega)
  refine ⟨done, next, buf', hitems, hrest ▸ htransit, fun peer peer' hpeer => ?_⟩
  rw [handleMessage, hdecode, ok_bind]
  simp only [Option.getD_some, List.nil_append, hpeer]
  rfl

end Arrival

section Messages

variable {β : Type} {sockets : Sockets} {buffer : BytesBuffer β} {s : Conversation β}
  {buf : β} {count : Nat}

theorem drop_actions {actions actions' new : List Action} (h : actions' = actions ++ new) :
    actions'.drop actions.length = new := by
  rw [h, List.drop_left]

theorem closing_send {ι : Type} (message : ι → Message) (items : List ι) :
    closing true (items.map fun item => .send (message item)) = none := by
  simp [closing]

theorem serverOnMessage_of_sent {server : ServerSession} {now : Int} {ι : Type}
    {message : ι → Message} {items : List ι}
    (hhandle : handleMessage sockets buffer (serve sockets.host.endian now) s.server s.serverBuf
      (s.toServer.wire.take count) = .ok (true, server, some buf, []))
    (hactions : server.peer.actions =
      s.server.peer.actions ++ items.map fun item => .send (message item)) :
    serverOnMessage sockets buffer s count now = .ok { s with
      server := server
      serverBuf := buf
      toServer := { s.toServer with wire := s.toServer.wire.drop count }
      toClient := (items.map fun item => .send (message item)).foldl
        (Channel.perform sockets.host sockets.serverAccepts) s.toClient
      closed := none } := by
  rw [serverOnMessage, hhandle, ok_bind]
  simp only [drop_actions hactions, closing_send]
  rfl

theorem clientOnMessage_of_silent {client : ClientPeer}
    (hhandle : handleMessage sockets buffer (dispatch sockets.host.endian) s.client s.clientBuf
      (s.toClient.wire.take count) = .ok (true, client, some buf, []))
    (hactions : client.actions = s.client.actions) :
    clientOnMessage sockets buffer s count = .ok { s with
      client := client
      clientBuf := buf
      toClient := { s.toClient with wire := s.toClient.wire.drop count }
      closed := none } := by
  rw [clientOnMessage, hhandle, ok_bind]
  simp only [drop_actions (hactions.trans (List.append_nil _).symm), closing]
  rfl

end Messages

/-! ## The invariant -/

/-- Both ends of a conversation agree on its requests: on those of which the client knows the answer
(`answered`), those that the server has answered (`handled`), and those that the server has not
handled yet (`waiting`). -/
structure Agreement {β : Type} (sockets : Sockets) (content : β → List UInt8)
    (s : Conversation β) (answered handled waiting : List Request) : Prop where
  /-- The first request is a login, and there is no other one. -/
  opens : ∃ later, answered ++ (handled ++ waiting) = .login 0 :: later ∧
    ∀ request ∈ later, request.isLogin = false
  small : ∀ request ∈ answered ++ (handled ++ waiting), request.Small
  /-- The requests that have an id are counted. -/
  ids : ∃ count, (answered ++ (handled ++ waiting)).filterMap Request.reqId? =
    (List.range count).map UInt32.ofNat ∧ s.client.reqId = UInt32.ofNat count
  requests : s.client.actions = (answered ++ (handled ++ waiting)).map fun request =>
    .send (request.message sockets.host.endian)
  answers : s.server.peer.actions = (answered ++ handled).map fun request =>
    .send (request.answer.message sockets.host.endian)
  log : s.client.log = answered.map fun request => request.answer.report
  clientLogined : s.client.isLogined = answered.any Request.isLogin
  serverLogined : s.server.peer.isLogined = (answered ++ handled).any Request.isLogin
  toServer : Transit (verdict (codec sockets.host)) (Request.frame sockets.host) waiting
    (content s.serverBuf) s.toServer.wire
  toClient : Transit (verdict (codec sockets.host)) (Request.answerFrame sockets.host) handled
    (content s.clientBuf) s.toClient.wire
  closed : s.closed = none ∨ s.closed = some .idle

section Steps

variable {β : Type} {sockets : Sockets} {buffer : BytesBuffer β} {content : β → List UInt8}
  {s : Conversation β} {answered handled waiting : List Request}

theorem agreement_clientOnTimer (haccepts : ∀ i, 68 ≤ sockets.clientAccepts i)
    (h : Agreement sockets content s answered handled waiting) (now : Int) (sec : UInt64)
    (nsec : UInt32) (rand : Nat → Nat) :
    ∃ waiting', Agreement sockets content (clientOnTimer sockets s now sec nsec rand) answered
      handled waiting' := by
  unfold clientOnTimer
  split
  · exact ⟨waiting, h⟩
  · let new := timerRequests s.client sec nsec rand
    have htimer := onTimer_eq sockets.host.endian s.client sec nsec rand
    have hall : answered ++ (handled ++ (waiting ++ new)) =
        answered ++ (handled ++ waiting) ++ new := by
      simp only [List.append_assoc]
    refine ⟨waiting ++ new, ?_, ?_, ?_, ?_, h.answers, ?_, ?_, h.serverLogined, ?_, h.toClient,
      h.closed⟩
    · obtain ⟨later, heq, hlater⟩ := h.opens
      refine ⟨later ++ new, by rw [hall, heq]; rfl, fun request hrequest => ?_⟩
      rcases List.mem_append.mp hrequest with hold | hnew
      · exact hlater request hold
      · exact (mem_timerRequests hnew).2
    · intro request hrequest
      rw [hall, List.mem_append] at hrequest
      exact hrequest.elim (h.small request) fun hnew => (mem_timerRequests hnew).1
    · obtain ⟨count, hids, hreqId⟩ := h.ids
      have hnext := congrArg ClientPeer.reqId htimer
      rw [hall, List.filterMap_append, hids, ids_timerRequests]
      cases hlogined : s.client.isLogined with
      | false =>
        refine ⟨count, ?_, ?_⟩
        · simp
        · simpa [hlogined, hreqId] using hnext
      | true =>
        refine ⟨count + 1, ?_, ?_⟩
        · simp [List.range_succ, hreqId]
        · simpa [hlogined, hreqId] using hnext
    · rw [hall, List.map_append, ← h.requests]
      exact congrArg ClientPeer.actions htimer
    · exact (congrArg ClientPeer.log htimer).trans h.log
    · exact (congrArg ClientPeer.isLogined htimer).trans h.clientLogined
    · show Transit _ _ _ (content s.serverBuf)
        (((onTimer sockets.host.endian s.client sec nsec rand).actions.drop
          s.client.actions.length).foldl _ s.toServer).wire
      rw [drop_actions (congrArg ClientPeer.actions htimer), foldl_perform]
      · exact h.toServer.send new
      · intro request hnew i
        exact Nat.le_trans (length_frame_le sockets.host (mem_timerRequests hnew).1) (haccepts i)

/-- The timer of the server ends the conversation if the session is idle. -/
theorem agreement_serverOnTimer (h : Agreement sockets content s answered handled waiting)
    (now : Int) :
    Agreement sockets content (serverOnTimer s now) answered handled waiting := by
  unfold serverOnTimer
  split
  · exact h
  · refine { h with closed := ?_ }
    show (if 15 < now - s.server.lastActived then some Closing.idle else s.closed) = none ∨
      (if 15 < now - s.server.lastActived then some Closing.idle else s.closed) = some .idle
    split
    · exact .inr rfl
    · exact h.closed

/-- The server has handled a login before anything else. -/
theorem Agreement.login_first (h : Agreement sockets content s answered handled waiting)
    {done next : List Request} (hsplit : waiting = done ++ next) :
    s.server.peer.isLogined = true ∨ ∀ request ∈ done.head?, request.isLogin = true := by
  obtain ⟨later, hopens, _⟩ := h.opens
  rw [h.serverLogined]
  rw [← List.append_assoc, hsplit] at hopens
  cases hhandled : answered ++ handled with
  | nil =>
    refine .inr fun request hrequest => ?_
    rw [hhandled, List.nil_append] at hopens
    cases done with
    | nil => cases hrequest
    | cons first done =>
      cases hrequest
      rw [(List.cons.inj hopens).1]
      rfl
  | cons first more =>
    rw [hhandled] at hopens
    rw [(List.cons.inj hopens).1]
    exact .inl rfl

theorem agreement_serverOnMessage (hfifo : IdealFifo buffer content)
    (haccepts : ∀ i, 68 ≤ sockets.serverAccepts i)
    (h : Agreement sockets content s answered handled waiting) (count : Nat) (now : Int) :
    ∃ s' done next, waiting = done ++ next ∧
      serverOnMessage sockets buffer s count now = .ok s' ∧
      Agreement sockets content s' answered (handled ++ done) next := by
  have hwaiting : ∀ request ∈ waiting, request.Small := fun request hrequest =>
    h.small request (List.mem_append_right _ (List.mem_append_right _ hrequest))
  have htransit := h.toServer
  rw [← List.take_append_drop count s.toServer.wire] at htransit
  obtain ⟨done, next, buf', hsplit, hnext, hhandle⟩ :=
    handleMessage_of_transit hfifo (serve sockets.host.endian now)
      (fun request hrequest => verdict_frame sockets.host (hwaiting request hrequest))
      (fun _ _ => encoded_pos _ _) htransit
  have hdone : ∀ request ∈ done, request.Small := fun request hrequest =>
    hwaiting request (hsplit ▸ List.mem_append_left _ hrequest)
  have hserved := hhandle s.server _
    (foldlM_serve hdone now s.server (h.login_first hsplit))
  obtain ⟨hlogined, hactions⟩ := foldl_sessionServed sockets.host.endian now done s.server
  have hall : answered ++ (handled ++ done ++ next) = answered ++ (handled ++ waiting) := by
    rw [hsplit, List.append_assoc]
  refine ⟨_, done, next, hsplit, serverOnMessage_of_sent hserved hactions, hall ▸ h.opens,
    hall ▸ h.small, hall ▸ h.ids, hall ▸ h.requests, ?_, h.log, h.clientLogined, ?_, hnext, ?_,
    .inl rfl⟩
  · rw [← List.append_assoc, List.map_append, ← h.answers]
    exact hactions
  · rw [← List.append_assoc, List.any_append, ← h.serverLogined]
    exact hlogined
  · rw [foldl_perform fun request _ i =>
      Nat.le_trans (length_answerFrame_le sockets.host request) (haccepts i)]
    exact h.toClient.send done

theorem agreement_clientOnMessage (hfifo : IdealFifo buffer content)
    (h : Agreement sockets content s answered handled waiting) (count : Nat) :
    ∃ s' done next, handled = done ++ next ∧ clientOnMessage sockets buffer s count = .ok s' ∧
      Agreement sockets content s' (answered ++ done) next waiting := by
  have htransit := h.toClient
  rw [← List.take_append_drop count s.toClient.wire] at htransit
  obtain ⟨done, next, buf', hsplit, hnext, hhandle⟩ :=
    handleMessage_of_transit hfifo (dispatch sockets.host.endian)
      (fun request _ => verdict_answerFrame sockets.host request)
      (fun _ _ => encoded_pos _ _) htransit
  have hdone : ∀ request ∈ done, request.Small := fun request hrequest =>
    h.small request (List.mem_append_right _ (List.mem_append_left _
      (hsplit ▸ List.mem_append_left _ hrequest)))
  have htold := hhandle s.client _ (foldlM_dispatch hdone s.client)
  have hclient := foldl_told done s.client
  have hall : answered ++ done ++ (next ++ waiting) = answered ++ (handled ++ waiting) := by
    rw [hsplit, List.append_assoc, List.append_assoc]
  have hserver : answered ++ done ++ next = answered ++ handled := by
    rw [hsplit, List.append_assoc]
  rw [hclient] at htold
  refine ⟨_, done, next, hsplit, clientOnMessage_of_silent htold rfl, hall ▸ h.opens,
    hall ▸ h.small, hall ▸ h.ids, hall ▸ h.requests, ?_, ?_, ?_, ?_, h.toServer, hnext,
    .inl rfl⟩
  · rw [hserver]
    exact h.answers
  · rw [List.map_append, ← h.log]
  · rw [List.any_append, ← h.clientLogined]
  · rw [hserver]
    exact h.serverLogined

/-- Both ends agree on some requests. -/
def Agrees (sockets : Sockets) (content : β → List UInt8) (s : Conversation β) : Prop :=
  ∃ answered handled waiting, Agreement sockets content s answered handled waiting

theorem Agrees.step (hfifo : IdealFifo buffer content)
    (hclient : ∀ i, 68 ≤ sockets.clientAccepts i) (hserver : ∀ i, 68 ≤ sockets.serverAccepts i)
    (s : Conversation β) (event : Event) (hagrees : Agrees sockets content s) :
    ∃ s', s.step sockets buffer event = .ok s' ∧ Agrees sockets content s' := by
  obtain ⟨answered, handled, waiting, h⟩ := hagrees
  unfold Conversation.step
  split
  · exact ⟨s, rfl, answered, handled, waiting, h⟩
  · cases event with
    | clientTimer now sec nsec rand =>
      exact ⟨_, rfl, answered, handled, agreement_clientOnTimer hclient h now sec nsec rand⟩
    | serverTimer now =>
      exact ⟨_, rfl, answered, handled, waiting, agreement_serverOnTimer h now⟩
    | clientMessage count =>
      obtain ⟨s', done, next, _, hstep, hagree⟩ := agreement_clientOnMessage hfifo h count
      exact ⟨s', hstep, answered ++ done, next, waiting, hagree⟩
    | serverMessage count now =>
      obtain ⟨s', done, next, _, hstep, hagree⟩ :=
        agreement_serverOnMessage hfifo hserver h count now
      exact ⟨s', hstep, answered, handled ++ done, next, hagree⟩

theorem agreement_start (hclient : ∀ i, 68 ≤ sockets.clientAccepts i) {empty : β}
    (hempty : content empty = []) (now clientTimer serverTimer : Int) :
    Agreement sockets content (Conversation.start sockets empty now clientTimer serverTimer)
      [] [] [.login 0] := by
  refine ⟨⟨[], rfl, nofun⟩, ?_, ⟨1, rfl, rfl⟩, rfl, rfl, rfl, rfl, rfl, ?_, ?_, .inl rfl⟩
  · intro request hrequest
    rw [List.mem_singleton.mp hrequest]
    trivial
  · have hlogin : ∀ request ∈ [Request.login 0], ∀ i,
        ((request.message sockets.host.endian).encoded sockets.host).length ≤
          sockets.clientAccepts i := by
      intro request hrequest i
      rw [List.mem_singleton.mp hrequest]
      exact Nat.le_trans (length_frame_le sockets.host trivial) (hclient i)
    have hnil : Transit (verdict (codec sockets.host)) (Request.frame sockets.host) [] [] [] :=
      Transit.nil (verdict_nil sockets.host)
    have hwire := foldl_perform hlogin ⟨[], 0⟩
    show Transit _ _ _ (content empty) _
    rw [hempty]
    exact hwire ▸ hnil.send [.login 0]
  · show Transit _ _ _ (content empty) []
    rw [hempty]
    exact Transit.nil (verdict_nil sockets.host)

end Steps

/-- A whole conversation, whatever the order in which timers fire and bytes arrive, wherever the
streams are cut and whatever numbers `rand` gives, if the sockets accept the messages whole: nothing
is read outside a message, and at every time client and server agree on the requests, which are
one login and then pings and sums with consecutive ids. The log of the client is exactly the
answers to the first of its requests, in order and each with the sum of its numbers as an
integer. Neither side ever rejects a message of the other, so the conversation ends only if the
server finds it idle. Once nothing is on the wires every request is answered. -/
theorem conversation_agrees {β : Type} {buffer : BytesBuffer β} {content : β → List UInt8}
    (hfifo : IdealFifo buffer content) (sockets : Sockets)
    (hclient : ∀ i, 68 ≤ sockets.clientAccepts i) (hserver : ∀ i, 68 ≤ sockets.serverAccepts i)
    {empty : β} (hempty : content empty = []) (now clientTimer serverTimer : Int)
    (events : List Event) :
    ∃ s answered handled waiting,
      (Conversation.start sockets empty now clientTimer serverTimer).run sockets buffer events =
        .ok s ∧
      Agreement sockets content s answered handled waiting ∧
      (s.toServer.wire = [] → waiting = []) ∧ (s.toClient.wire = [] → handled = []) := by
  have hstart := agreement_start hclient hempty now clientTimer serverTimer
  obtain ⟨s, hrun, answered, handled, waiting, h⟩ :=
    exists_foldlM (Agrees.step hfifo hclient hserver) ⟨[], [], [.login 0], hstart⟩ events
  refine ⟨s, answered, handled, waiting, hrun, h, fun hwire => ?_, fun hwire => ?_⟩
  · refine (hwire ▸ h.toServer).eq_nil (verdict_stable _) fun request hrequest => ?_
    exact verdict_frame sockets.host
      (h.small request (List.mem_append_right _ (List.mem_append_right _ hrequest)))
  · exact (hwire ▸ h.toClient).eq_nil (verdict_stable _) fun request _ =>
      verdict_answerFrame sockets.host request

/-- Sockets of a little-endian machine that accept a hundred bytes at once. -/
def plainSockets : Sockets where
  host := ⟨.little, 1, 2⟩
  clientAccepts _ := 100
  serverAccepts _ := 100

/-- The login arrives in two parts, its answer in one, and then a timer asks for a sum. -/
theorem conversation_agrees_login :
    ∃ s answered handled waiting,
      (Conversation.start plainSockets [] 0 0 0).run plainSockets (listBuffer 17)
        [.serverMessage 5 0, .serverMessage 63 0, .clientMessage 21, .clientTimer 3 3 0 id] =
          .ok s ∧
      Agreement plainSockets id s answered handled waiting ∧
      (s.toServer.wire = [] → waiting = []) ∧ (s.toClient.wire = [] → handled = []) :=
  conversation_agrees (listBuffer_ideal 17) plainSockets
    (fun _ => show 68 ≤ 100 by decide) (fun _ => show 68 ≤ 100 by decide) rfl 0 0 0 _

end HakunaMatata.DemoClient
