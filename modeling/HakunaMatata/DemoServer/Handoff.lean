import HakunaMatata.Base.Machine
import HakunaMatata.DemoServer.Login

/-!
# The move of a connection to a worker, `tcp_listen_handle.cpp` and `tcp_server_handle.cpp`

A connection starts in the listen loop. A login takes a reference, marks the session as detached
and sets the close flag. `OnClose` of the listen loop then hands the context to a worker, and the
loop drops its own reference. The loops run in threads of their own: an `Op` is one step of one
of them, in any order. What the event loop does is assumed: it calls `OnClose` on a loop that has
the context if the close flag is set, then drops one reference, and calls `OnRelease` when the
count is zero.

`Counted` is the invariant of every reachable state. A second login takes a reference that nobody
drops: at the end the references are balanced exactly if there was at most one login.
-/

namespace HakunaMatata.DemoServer

open Base CodecBytes

/-- The event loops. -/
inductive Loop where
  | listen
  | worker (idx : Nat)
  deriving DecidableEq, Repr

/-- The members of `TcpListenHandle` that choose a worker. -/
structure ListenHandle where
  workerIdx : Nat
  userWorkerDict : List (List UInt8 × Nat)
  deriving DecidableEq, Repr

/-- The worker of a user: the one from an earlier login, or the next one. -/
def ListenHandle.assign (handle : ListenHandle) (workers : Nat) (userId : List UInt8) :
    Nat × ListenHandle :=
  let idx := handle.workerIdx % workers
  (handle.userWorkerDict.lookup userId).elim
    (idx, ⟨handle.workerIdx + 1, (userId, idx) :: handle.userWorkerDict⟩) fun idx => (idx, handle)

/-- A connection: the peer, the loops that have the context in their set, the loops that called
`OnClose` and did not drop their reference yet, and the calls of `AddContext` that the workers did
not take yet. Counted are the login messages, the references taken by `RefCntRetain`, the calls
of `AddContext` and those of `OnRelease`. -/
structure Conn where
  peer : Peer
  handle : ListenHandle
  owners : List Loop
  dropping : List Loop
  pending : List Nat
  logins : Nat
  retains : Nat
  handoffs : Nat
  releases : Nat
  deriving DecidableEq, Repr

/-- A connection after `OnConnect`. -/
def Conn.start (handle : ListenHandle) : Conn where
  peer := .start
  handle := handle
  owners := [.listen]
  dropping := []
  pending := []
  logins := 0
  retains := 0
  handoffs := 0
  releases := 0

/-- One step of a loop. `disconnect` is the end of the stream, an error, or a `Shutdown` that the
loop notices, and `others` is what other connections do to the listen handle. -/
inductive Op where
  | message (loop : Loop) (msg : List UInt8)
  | disconnect (loop : Loop)
  | close (loop : Loop)
  | drop (loop : Loop)
  | add (idx : Nat)
  | others (handle : ListenHandle)
  deriving DecidableEq, Repr

section Steps

variable (endian : Endian) (workers : Nat)

/-- A message is dispatched in a loop. -/
def Conn.message (conn : Conn) (msg : List UInt8) : Except Fault Conn := do
  let peer ← dispatch endian conn.peer msg .worker
  return { conn with
    peer := peer
    logins := conn.logins + if wordAt endian msg 8 = reqLogin.toNat then 1 else 0
    retains := conn.retains + (peer.refCnt - conn.peer.refCnt) }

/-- `TcpListenHandle::OnClose` of a detached session. -/
def Conn.handOver (conn : Conn) : Conn :=
  let assigned := conn.handle.assign workers conn.peer.userId
  { conn with
    peer := { conn.peer with detached := false, flagClose := false }
    handle := assigned.2
    pending := conn.pending ++ [assigned.1]
    handoffs := conn.handoffs + 1 }

/-- `OnClose` of the handle of a loop. That of the workers does nothing. -/
def Conn.onClose (conn : Conn) : Loop → Conn
  | .listen => if conn.peer.detached then conn.handOver workers else conn
  | .worker _ => conn

/-- The loop calls `OnClose` and takes the context out of its set. -/
def Conn.close (conn : Conn) (loop : Loop) : Conn :=
  let conn := conn.onClose workers loop
  { conn with owners := conn.owners.erase loop, dropping := loop :: conn.dropping }

/-- The loop drops its reference, and releases the context if it was the last one. -/
def Conn.dropRef (conn : Conn) (loop : Loop) : Except Fault Conn :=
  if conn.peer.refCnt = 0 then .error .assertion
  else .ok { conn with
    peer := { conn.peer with refCnt := conn.peer.refCnt - 1 }
    dropping := conn.dropping.erase loop
    releases := conn.releases + if conn.peer.refCnt = 1 then 1 else 0 }

/-- The step of an operation. One that is not possible in the state is an error. -/
def Conn.step (conn : Conn) : Op → Except Fault Conn
  | .message loop msg =>
    if loop ∈ conn.owners then conn.message endian msg else .error .assertion
  | .disconnect loop =>
    if loop ∈ conn.owners then
      .ok { conn with peer := { conn.peer with flagClose := true } }
    else .error .assertion
  | .close loop =>
    if loop ∈ conn.owners ∧ conn.peer.flagClose = true then .ok (conn.close workers loop)
    else .error .assertion
  | .drop loop => if loop ∈ conn.dropping then conn.dropRef loop else .error .assertion
  | .add idx =>
    if idx ∈ conn.pending then
      .ok { conn with pending := conn.pending.erase idx, owners := .worker idx :: conn.owners }
    else .error .assertion
  | .others handle => .ok { conn with handle := handle }

end Steps

/-! ## Counting references -/

/-- The invariant: the references are those of the loops that have the context or are about to
drop theirs, of the calls of `AddContext` on the way, and those that were taken and not handed
over. -/
structure Counted (conn : Conn) : Prop where
  refs : conn.peer.refCnt + conn.handoffs =
    conn.owners.length + conn.pending.length + conn.dropping.length + conn.logins
  retained : conn.retains = conn.logins
  once : conn.owners.count .listen + conn.handoffs ≤ 1
  handed : conn.handoffs ≤ conn.logins
  attached : conn.logins = 0 → conn.peer.detached = false
  unmoved : conn.handoffs = 0 → (∀ loop ∈ conn.owners, loop = .listen) ∧ conn.pending = [] ∧
    (conn.logins = 0 ∨ .listen ∈ conn.owners ∧ conn.peer.detached = true)
  released : conn.releases = if conn.peer.refCnt = 0 then 1 else 0

theorem counted_start (handle : ListenHandle) : Counted (.start handle) where
  refs := rfl
  retained := rfl
  once := le_rfl
  handed := le_rfl
  attached _ := rfl
  unmoved _ := by simp [Conn.start]
  released := rfl

section Invariant

variable {endian : Endian} {workers : Nat} {conn conn' : Conn} {loop : Loop}

/-- A context that is in use has a reference, and was not released. -/
theorem Counted.in_use (h : Counted conn)
    (huse : conn.owners ≠ [] ∨ conn.pending ≠ [] ∨ conn.dropping ≠ []) :
    conn.peer.refCnt ≠ 0 ∧ conn.releases = 0 := by
  have hrefs := h.refs
  have hhanded := h.handed
  have hreleased := h.released
  have hcount : conn.peer.refCnt ≠ 0 := by
    rcases huse with hne | hne | hne
    · have := List.length_pos_iff.2 hne
      omega
    · have := List.length_pos_iff.2 hne
      omega
    · have := List.length_pos_iff.2 hne
      omega
  exact ⟨hcount, by rw [hreleased, if_neg hcount]⟩

@[simp] theorem refCnt_closeIf (peer : Peer) (reject : Bool) :
    (peer.closeIf reject).refCnt = peer.refCnt := by
  cases reject with
  | false => rfl
  | true => rfl

@[simp] theorem detached_closeIf (peer : Peer) (reject : Bool) :
    (peer.closeIf reject).detached = peer.detached := by
  cases reject with
  | false => rfl
  | true => rfl

/-- A login takes a reference and detaches the session, and other messages do neither. -/
theorem dispatch_worker_refs {peer peer' : Peer} {msg : List UInt8}
    (h : dispatch endian peer msg .worker = .ok peer') :
    (wordAt endian msg 8 = reqLogin.toNat ∧ peer'.refCnt = peer.refCnt + 1 ∧
      peer'.detached = true) ∨
    (wordAt endian msg 8 ≠ reqLogin.toNat ∧ peer'.refCnt = peer.refCnt ∧
      peer'.detached = peer.detached) := by
  rcases dispatch_cases h with ⟨hid, payload, rfl⟩ | ⟨hid, payload, rfl⟩ |
    ⟨_, hid, rfl | ⟨payload, rfl⟩⟩
  · refine .inr ⟨?_, ?_, ?_⟩
    · rw [hid]
      decide
    · simp [Peer.send, Peer.checkSum]
    · simp [Peer.send, Peer.checkSum]
  · exact .inl ⟨hid, by simp [Peer.send, detach, Peer.checkLogin], rfl⟩
  · exact .inr ⟨hid, rfl, rfl⟩
  · exact .inr ⟨hid, rfl, rfl⟩

/-- A message keeps the count: a login takes the reference that it is counted for. -/
theorem Counted.message (h : Counted conn) (hloop : loop ∈ conn.owners) {msg : List UInt8}
    (hmessage : conn.message endian msg = .ok conn') : Counted conn' := by
  obtain ⟨peer', hdispatch, hconn⟩ := bind_eq_ok.1 hmessage
  cases hconn
  obtain ⟨hcount, hreleases⟩ := h.in_use (.inl (List.ne_nil_of_mem hloop))
  have hrefs := h.refs
  have hhanded := h.handed
  rcases dispatch_worker_refs hdispatch with ⟨hid, hcount', hdetached⟩ | ⟨hid, hcount', hdetached⟩
  · refine ⟨?_, ?_, h.once, ?_, ?_, ?_, ?_⟩
    · simp only [hid, if_true]
      omega
    · simp only [hid, if_true, h.retained]
      omega
    · simp only [hid, if_true]
      omega
    · simp [hid]
    · intro hzero
      obtain ⟨hlisten, hpending, _⟩ := h.unmoved hzero
      exact ⟨hlisten, hpending, .inr ⟨hlisten loop hloop ▸ hloop, hdetached⟩⟩
    · exact hreleases.trans (if_neg (show peer'.refCnt ≠ 0 by omega)).symm
  · refine ⟨?_, ?_, h.once, ?_, ?_, ?_, ?_⟩
    · simp only [hid, if_false]
      omega
    · simp only [hid, if_false, h.retained]
      omega
    · simp only [hid, if_false]
      omega
    · simp only [hid, if_false, hdetached]
      exact h.attached
    · simp only [hid, if_false, hdetached]
      exact h.unmoved
    · exact hreleases.trans (if_neg (show peer'.refCnt ≠ 0 by omega)).symm

/-- A loop that has the context takes it out of its set and is about to drop its reference. -/
theorem length_owners_erase (hloop : loop ∈ conn.owners) :
    (conn.owners.erase loop).length + 1 = conn.owners.length := by
  have hpos := List.length_pos_of_mem hloop
  rw [List.length_erase_of_mem hloop]
  omega

/-- `OnClose` of the listen loop hands over a reference that a login has taken. -/
theorem Counted.handOver (h : Counted conn) (hloop : .listen ∈ conn.owners)
    (hdetached : conn.peer.detached = true) :
    Counted { conn.handOver workers with
      owners := conn.owners.erase .listen, dropping := .listen :: conn.dropping } := by
  have hrefs := h.refs
  have honce := h.once
  have hlength := length_owners_erase hloop
  have hcount : (conn.owners.erase .listen).count .listen + 1 = conn.owners.count .listen := by
    have hpos := List.count_pos_iff.2 hloop
    rw [List.count_erase_self]
    omega
  have hlogins : conn.logins ≠ 0 := by
    intro hzero
    rw [h.attached hzero] at hdetached
    cases hdetached
  refine ⟨?_, h.retained, ?_, ?_, fun hzero => absurd hzero hlogins, ?_, h.released⟩
  · simp only [Conn.handOver, List.length_append, List.length_cons, List.length_nil]
    omega
  · simp only [Conn.handOver]
    omega
  · simp only [Conn.handOver]
    omega
  · intro hzero
    cases hzero

theorem Counted.leave (h : Counted conn) (hloop : loop ∈ conn.owners)
    (hstays : loop = .listen → conn.peer.detached = false) :
    Counted { conn with
      owners := conn.owners.erase loop, dropping := loop :: conn.dropping } := by
  have hrefs := h.refs
  have honce := h.once
  have hlength := length_owners_erase hloop
  have hcount : (conn.owners.erase loop).count .listen ≤ conn.owners.count .listen :=
    List.erase_sublist.count_le _
  refine ⟨?_, h.retained, ?_, h.handed, h.attached, ?_, h.released⟩
  · simp only [List.length_cons]
    omega
  · simp only
    omega
  · intro hzero
    obtain ⟨hlisten, hpending, hlogins⟩ := h.unmoved hzero
    refine ⟨fun l hl => hlisten l (List.mem_of_mem_erase hl), hpending, .inl ?_⟩
    -- the loop is the listen loop, so the session is not detached and nobody logged in
    rcases hlogins with hlogins | ⟨_, hdetached⟩
    · exact hlogins
    · rw [hstays (hlisten loop hloop)] at hdetached
      cases hdetached

theorem Counted.close (h : Counted conn) (hloop : loop ∈ conn.owners) :
    Counted (conn.close workers loop) := by
  cases loop with
  | worker idx => exact h.leave hloop fun hlisten => by cases hlisten
  | listen =>
    unfold Conn.close Conn.onClose
    by_cases hdetached : conn.peer.detached = true
    · simp only [hdetached, if_true]
      exact h.handOver hloop hdetached
    · simp only [hdetached]
      exact h.leave hloop fun _ => Bool.not_eq_true _ ▸ hdetached

theorem Counted.dropRef (h : Counted conn) (hloop : loop ∈ conn.dropping)
    (hdrop : conn.dropRef loop = .ok conn') : Counted conn' := by
  have hrefs := h.refs
  obtain ⟨hcount, hreleases⟩ := h.in_use (.inr (.inr (List.ne_nil_of_mem hloop)))
  have hlength : (conn.dropping.erase loop).length + 1 = conn.dropping.length := by
    have hpos := List.length_pos_of_mem hloop
    rw [List.length_erase_of_mem hloop]
    omega
  rw [Conn.dropRef, if_neg hcount] at hdrop
  cases hdrop
  refine ⟨?_, h.retained, h.once, h.handed, h.attached, h.unmoved, ?_⟩
  · simp only
    omega
  · simp only [hreleases]
    have hlast : conn.peer.refCnt - 1 = 0 ↔ conn.peer.refCnt = 1 := by omega
    simp only [hlast, Nat.zero_add]

theorem Counted.add (h : Counted conn) {idx : Nat} (hidx : idx ∈ conn.pending) :
    Counted { conn with
      pending := conn.pending.erase idx, owners := .worker idx :: conn.owners } := by
  have hrefs := h.refs
  have hlength : (conn.pending.erase idx).length + 1 = conn.pending.length := by
    have hpos := List.length_pos_of_mem hidx
    rw [List.length_erase_of_mem hidx]
    omega
  refine ⟨?_, h.retained, ?_, h.handed, h.attached, ?_, h.released⟩
  · simp only [List.length_cons]
    omega
  · simp only [List.count_cons]
    exact h.once
  · intro hzero
    rw [(h.unmoved hzero).2.1] at hidx
    cases hidx

theorem Counted.step (h : Counted conn) (op : Op)
    (hstep : conn.step endian workers op = .ok conn') : Counted conn' := by
  cases op with
  | message loop msg =>
    simp only [Conn.step] at hstep
    split at hstep
    · exact h.message ‹_› hstep
    · cases hstep
  | disconnect loop =>
    simp only [Conn.step] at hstep
    split at hstep
    · cases hstep
      exact ⟨h.refs, h.retained, h.once, h.handed, h.attached, h.unmoved, h.released⟩
    · cases hstep
  | close loop =>
    simp only [Conn.step] at hstep
    split at hstep
    · cases hstep
      exact h.close (And.left ‹_›)
    · cases hstep
  | drop loop =>
    simp only [Conn.step] at hstep
    split at hstep
    · exact h.dropRef ‹_› hstep
    · cases hstep
  | add idx =>
    simp only [Conn.step] at hstep
    split at hstep
    · cases hstep
      exact h.add ‹_›
    · cases hstep
  | others handle =>
    cases hstep
    exact ⟨h.refs, h.retained, h.once, h.handed, h.attached, h.unmoved, h.released⟩

end Invariant

/-! ## The end of a connection -/

/-- No loop has the context or is about to get it. -/
def Conn.Ended (conn : Conn) : Prop :=
  conn.owners = [] ∧ conn.pending = [] ∧ conn.dropping = []

/-- The accounting of references: the context is handed to a worker at most once and released at
most once, only when it is out of use, and at the end each reference that was taken was handed
over and the context was released. -/
def Balanced (conn : Conn) : Prop :=
  conn.handoffs ≤ 1 ∧ conn.releases ≤ 1 ∧ (conn.releases = 1 → conn.Ended) ∧
    (conn.Ended → conn.handoffs = conn.retains ∧ conn.peer.refCnt = 0 ∧ conn.releases = 1)

/-- In a reachable state only a second login can break the balance, and it does. -/
theorem Counted.balanced_iff {conn : Conn} (h : Counted conn) :
    Balanced conn ↔ (conn.Ended → conn.logins ≤ 1) := by
  have honce := h.once
  have hhanded := h.handed
  have hretained := h.retained
  have hreleased := h.released
  have hended : conn.Ended → conn.peer.refCnt + conn.handoffs = conn.logins := by
    rintro ⟨howners, hpending, hdropping⟩
    simpa [howners, hpending, hdropping] using h.refs
  constructor
  · rintro ⟨_, _, _, hbalance⟩ hend
    have := hbalance hend
    omega
  · intro hlogins
    refine ⟨by omega, ?_, ?_, ?_⟩
    · rw [hreleased]
      split <;> omega
    · intro hrelease
      by_contra hnot
      have huse : conn.owners ≠ [] ∨ conn.pending ≠ [] ∨ conn.dropping ≠ [] := by
        simpa only [Conn.Ended, not_and_or] using hnot
      have := (h.in_use huse).2
      omega
    · intro hend
      have hlogins := hlogins hend
      have hrefs := hended hend
      have hmoved : conn.handoffs = 0 → conn.logins = 0 := by
        intro hzero
        rcases (h.unmoved hzero).2.2 with hlogins | ⟨hlisten, _⟩
        · exact hlogins
        · rw [hend.1] at hlisten
          cases hlisten
      have hcount : conn.peer.refCnt = 0 := by omega
      rw [if_pos hcount] at hreleased
      exact ⟨by omega, hcount, hreleased⟩

/-- For every sequence of messages and every interleaving of the loops: in each state the
accounting is balanced exactly if the connection has not ended or had at most one login. -/
theorem handoff_balanced_iff (endian : Endian) (workers : Nat) (handle : ListenHandle)
    (ops : List Op) :
    Throughout (Conn.step endian workers)
      (fun conn => Balanced conn ↔ (conn.Ended → conn.logins ≤ 1)) (.start handle) ops := by
  have hinv : Throughout (Conn.step endian workers) Counted (.start handle) ops :=
    throughout_of_step (fun _ op _ h hstep => h.step op hstep) (counted_start handle) ops
  exact hinv.mono fun _ h => h.balanced_iff

/-- A login request with empty strings. -/
def loginRequest : List UInt8 :=
  frameOf reqLogin (List.replicate 52 0)

/-- The messages are read in the listen loop, the connection is moved to a worker, more messages
are read there, and the client disconnects. -/
def session (before after : List (List UInt8)) : List Op :=
  before.map (.message .listen) ++ [.close .listen, .add 0, .drop .listen] ++
    after.map (.message (.worker 0)) ++
    [.disconnect (.worker 0), .close (.worker 0), .drop (.worker 0)]

/-- The counters of a connection that has ended. -/
def Conn.totals (conn : Conn) : Option (Nat × Nat × Nat × Nat) :=
  if conn.owners.isEmpty && conn.pending.isEmpty && conn.dropping.isEmpty then
    some (conn.retains, conn.handoffs, conn.peer.refCnt, conn.releases)
  else none

example : ((session [loginRequest] []).foldlM (Conn.step .little 2) (.start ⟨0, []⟩)).map
    Conn.totals = .ok (some (1, 1, 0, 1)) := by
  decide +kernel

/-- Two logins in one read, or one before and one after the move: two references are taken, one
is handed over, and the context is never released. -/
theorem second_login_never_released :
    ((session [loginRequest, loginRequest] []).foldlM (Conn.step .little 2)
      (.start ⟨0, []⟩)).map Conn.totals = .ok (some (2, 1, 1, 0)) ∧
    ((session [loginRequest] [loginRequest]).foldlM (Conn.step .little 2)
      (.start ⟨0, []⟩)).map Conn.totals = .ok (some (2, 1, 1, 0)) := by
  decide +kernel

end HakunaMatata.DemoServer
