import HakunaMatata.CodecBytes.Model

/-!
# The demo servers of the custom TCP protocol, `server_peer.cpp`

`dispatch` is the end of `Dispatcher::decode`: it looks at the message id and calls the callback
of the server. A message is the memory from its first byte on, with checked reads. The single
server (`tcp_server`) and the server with workers (`tcp_server_worker`) differ only in `onLogin`,
where the latter prepares the move of the socket to a worker. The branches of the source that
reject a request close the session and then go on. What the peer does to the socket is kept in
the order in which it happens.
-/

namespace HakunaMatata.DemoServer

open Base CodecBytes

/-- The two servers. -/
inductive Server where
  | single
  | worker
  deriving DecidableEq, Repr

/-- `DEMO_MSG_ID_*`. -/
def reqLogin : UInt32 := 1

@[inherit_doc reqLogin] def rspLogin : UInt32 := 2

@[inherit_doc reqLogin] def ping : UInt32 := 3

@[inherit_doc reqLogin] def pong : UInt32 := 4

@[inherit_doc reqLogin] def reqSum : UInt32 := 5

@[inherit_doc reqLogin] def rspSum : UInt32 := 6

/-- What a peer does to its socket: `Session::Close`, which calls `Shutdown`, and
`Session::sendMessage`. -/
inductive Action where
  | shutdown
  | send (message : Message)
  deriving DecidableEq, Repr

/-- `ServerPeer` with its session and socket context. -/
structure Peer where
  userId : List UInt8
  isLogined : Bool
  detached : Bool
  refCnt : Nat
  flagClose : Bool
  actions : List Action
  deriving DecidableEq, Repr

/-- A peer after `OnConnect`. -/
def Peer.start : Peer where
  userId := []
  isLogined := false
  detached := false
  refCnt := 1
  flagClose := false
  actions := []

/-- `Session::Close`. -/
def Peer.close (peer : Peer) : Peer :=
  { peer with actions := peer.actions ++ [.shutdown] }

/-- `DEMO_SESSION_SEND_MSG`. -/
def Peer.send (peer : Peer) (message : Message) : Peer :=
  { peer with actions := peer.actions ++ [.send message] }

/-- Close the session if a request is to be rejected. The callbacks go on afterwards. -/
def Peer.closeIf (peer : Peer) (reject : Bool) : Peer :=
  if reject then peer.close else peer

/-- The characters of a C string. -/
def cString (memory : List UInt8) (offset : Nat) : List UInt8 :=
  (memory.drop offset).takeWhile (· ≠ 0)

/-- `strlen`: it reads up to the first NUL. -/
def strlen (memory : List UInt8) (offset : Nat) : Except Fault Nat :=
  if 0 ∈ memory.drop offset then .ok (cString memory offset).length else .error .outOfBounds

section Callbacks

variable (endian : Endian) (peer : Peer) (msg : List UInt8)

/-- Read an integer of the message. -/
def readWord (offset : Nat) : Except Fault Nat := do
  let bytes ← bytesAt msg offset 4
  return loadWord endian bytes

/-- `ServerPeer::onPing`. -/
def onPing : Except Fault Peer := do
  let sec ← bytesAt msg 16 8
  let nsec ← bytesAt msg 24 4
  return peer.send ⟨pong, sec ++ nsec⟩

/-- `ServerPeer::onLogin` up to the assignment of `is_logined_`. -/
def login : Except Fault Peer := do
  let userLen ← strlen msg 20
  let peer := peer.closeIf (16 ≤ userLen)
  let passwordLen ← strlen msg 36
  let peer := peer.closeIf (32 ≤ passwordLen)
  return { peer with userId := cString msg 20, isLogined := true }

/-- Detach from the listen loop: only the server with workers does it. -/
def detach : Server → Peer → Peer
  | .single, peer => peer
  | .worker, peer => { peer with detached := true, refCnt := peer.refCnt + 1, flagClose := true }

/-- `ServerPeer::onLogin`. -/
def onLogin (server : Server) : Except Fault Peer := do
  let peer ← login peer msg
  let reqId ← bytesAt msg 16 4
  return (detach server peer).send ⟨rspLogin, reqId ++ [1]⟩

/-- The loop over the array, from index `i` on. The sum wraps around. -/
def sumLoop : Nat → Nat → BitVec 32 → Except Fault (BitVec 32)
  | 0, _, sum => .ok sum
  | count + 1, i, sum => do
    let x ← readWord endian msg (24 + 4 * i)
    sumLoop count (i + 1) (sum + BitVec.ofNat 32 x)

/-- `ServerPeer::onReqSum`. -/
def onReqSum : Except Fault Peer := do
  let arrLen ← readWord endian msg 20
  let peer := peer.closeIf (16 < arrLen)
  let peer := peer.closeIf (!peer.isLogined)
  let reqId ← bytesAt msg 16 4
  let sum ← sumLoop endian msg arrLen 0 0
  return peer.send ⟨rspSum, reqId ++ storeWord endian 4 sum.toNat⟩

/-- The end of `Dispatcher::decode`, with the callbacks that the servers register. -/
def dispatch (server : Server) : Except Fault Peer := do
  let msgId ← readWord endian msg 8
  if msgId = ping.toNat then onPing peer msg
  else if msgId = reqLogin.toNat then onLogin peer msg server
  else if msgId = reqSum.toNat then onReqSum endian peer msg
  else return peer

end Callbacks

end HakunaMatata.DemoServer
