import HakunaMatata.Base.Transit
import HakunaMatata.DemoClient.Protocol

/-!
# A conversation between the demo client and the demo server

One connection with both of its ends: `TcpClientHandle` and `ClientPeer` on one side,
`TcpServerHandle` and `ServerPeer` on the other, each with the byte buffer of its session. A write
puts bytes on the wire, as many as the socket accepts. Timers fire and bytes arrive in any order,
and `OnMessage` finds any number of the bytes that are on the wire. `conversation_agrees` is what
holds at every time: the client knows the answers to the requests it sent first, in their order,
and nothing but a server that found the session idle has ended the conversation.
-/

namespace HakunaMatata.DemoClient

open Base CodecBytes CodecChain DemoServer

/-- One direction of a connection: the bytes that were written and not read yet, and how often
something was written. -/
structure Channel where
  wire : List UInt8
  writes : Nat
  deriving DecidableEq, Repr

/-- Why a socket was shut down: a callback closed the session, `handleMessage` failed, or the
server found the session idle. -/
inductive Closing where
  | rejected
  | undecodable
  | idle
  deriving DecidableEq, Repr

/-- The session of the server: `ServerPeer` and `last_actived_ts_`. -/
structure ServerSession where
  peer : Peer
  lastActived : Int
  deriving DecidableEq, Repr

/-- A connection. The timers are `last_timer_trigger_` of the two handles. -/
structure Conversation (β : Type) where
  client : ClientPeer
  clientBuf : β
  clientTimer : Int
  server : ServerSession
  serverBuf : β
  serverTimer : Int
  toServer : Channel
  toClient : Channel
  closed : Option Closing

/-- The machines and the sockets: how many bytes the sockets of the two sides accept in each of
their writes. -/
structure Sockets where
  host : Host
  clientAccepts : Nat → Nat
  serverAccepts : Nat → Nat

/-- What happens on a connection. `OnMessage` finds the first `count` bytes of what is on the
wire. -/
inductive Event where
  | clientTimer (now : Int) (sec : UInt64) (nsec : UInt32) (rand : Nat → Nat)
  | serverTimer (now : Int)
  | clientMessage (count : Nat)
  | serverMessage (count : Nat) (now : Int)

/-- The codec that `initDispatcher` appends on both sides. -/
def codec (host : Host) : Config where
  host := host
  recvUnitSize := 4 * 1024
  msgLenLimit := 32 * 1024

section Steps

variable {β : Type} (sockets : Sockets) (buffer : BytesBuffer β)

/-- `SocketContext::Write`: what the socket does not accept is not sent later. -/
def Channel.write (accepts : Nat → Nat) (channel : Channel) (bytes : List UInt8) : Channel :=
  ⟨channel.wire ++ bytes.take (accepts channel.writes), channel.writes + 1⟩

/-- A peer acts on its socket. -/
def Channel.perform (host : Host) (accepts : Nat → Nat) (channel : Channel) : Action → Channel
  | .shutdown => channel
  | .send message => channel.write accepts (message.encoded host)

/-- Why a socket is shut down after a message was handled. -/
def closing (ok : Bool) (actions : List Action) : Option Closing :=
  if .shutdown ∈ actions then some .rejected
  else if ok = false then some .undecodable
  else none

/-- `Session::handleMessage`, with the callbacks of a peer: the frames are parsed off the buffer and
dispatched one after the other. It gives the buffer and what the socket still has to read. -/
def handleMessage {π : Type} (dispatch : π → List UInt8 → Except Fault π) (peer : π) (buf : β)
    (arrived : List UInt8) : Except Fault (Bool × π × Option β × List UInt8) := do
  let (ok, session) ← decode (codec sockets.host) buffer none
    (buffer.readable buf + arrived.length + 1) ⟨some buf, some arrived, some []⟩
  let peer ← (session.dispatcher.getD []).foldlM dispatch peer
  return (ok, peer, session.bytesBuf, session.ctx.getD [])

/-- A message at the server: `onPing` notes the time. -/
def serve (endian : Endian) (now : Int) (session : ServerSession) (msg : List UInt8) :
    Except Fault ServerSession := do
  let msgId ← readWord endian msg 8
  let peer ← DemoServer.dispatch endian session.peer msg .single
  return ⟨peer, if msgId = ping.toNat then now else session.lastActived⟩

variable (s : Conversation β)

/-- `TcpClientHandle::OnTimer`. -/
def clientOnTimer (now : Int) (sec : UInt64) (nsec : UInt32) (rand : Nat → Nat) :
    Conversation β :=
  if now - s.clientTimer < 3 then s
  else
    let client := onTimer sockets.host.endian s.client sec nsec rand
    let actions := client.actions.drop s.client.actions.length
    { s with
      clientTimer := now
      client := client
      toServer := actions.foldl (Channel.perform sockets.host sockets.clientAccepts) s.toServer }

/-- `TcpServerHandle::OnTimer`, for this session. -/
def serverOnTimer (now : Int) : Conversation β :=
  if now - s.serverTimer < 5 then s
  else
    { s with
      serverTimer := now
      closed := if 15 < now - s.server.lastActived then some .idle else s.closed }

/-- `TcpClientHandle::OnMessage`. -/
def clientOnMessage (count : Nat) : Except Fault (Conversation β) := do
  let (ok, client, buf, unread) ← handleMessage sockets buffer (dispatch sockets.host.endian)
    s.client s.clientBuf (s.toClient.wire.take count)
  let actions := client.actions.drop s.client.actions.length
  return { s with
    client := client
    clientBuf := buf.getD s.clientBuf
    toClient := { s.toClient with wire := unread ++ s.toClient.wire.drop count }
    toServer := actions.foldl (Channel.perform sockets.host sockets.clientAccepts) s.toServer
    closed := closing ok actions }

/-- `TcpServerHandle::OnMessage`. -/
def serverOnMessage (count : Nat) (now : Int) : Except Fault (Conversation β) := do
  let (ok, server, buf, unread) ← handleMessage sockets buffer (serve sockets.host.endian now)
    s.server s.serverBuf (s.toServer.wire.take count)
  let actions := server.peer.actions.drop s.server.peer.actions.length
  return { s with
    server := server
    serverBuf := buf.getD s.serverBuf
    toServer := { s.toServer with wire := unread ++ s.toServer.wire.drop count }
    toClient := actions.foldl (Channel.perform sockets.host sockets.serverAccepts) s.toClient
    closed := closing ok actions }

/-- Something happens on the connection. A connection that was shut down is over. -/
def Conversation.step (event : Event) : Except Fault (Conversation β) :=
  if s.closed.isSome then .ok s
  else
    match event with
    | .clientTimer now sec nsec rand => .ok (clientOnTimer sockets s now sec nsec rand)
    | .serverTimer now => .ok (serverOnTimer s now)
    | .clientMessage count => clientOnMessage sockets buffer s count
    | .serverMessage count now => serverOnMessage sockets buffer s count now

/-- Things happen one after the other. -/
def Conversation.run (events : List Event) : Except Fault (Conversation β) :=
  events.foldlM (Conversation.step sockets buffer) s

/-- A new connection, with empty buffers: `OnConnect` of the server and `OnAddCtx` of the client,
which sends its login. -/
def Conversation.start (empty : β) (now clientTimer serverTimer : Int) : Conversation β :=
  let client := onConnection sockets.host.endian ClientPeer.start
  { client := client
    clientBuf := empty
    clientTimer := clientTimer
    server := ⟨Peer.start, now⟩
    serverBuf := empty
    serverTimer := serverTimer
    toServer := client.actions.foldl (Channel.perform sockets.host sockets.clientAccepts) ⟨[], 0⟩
    toClient := ⟨[], 0⟩
    closed := none }

end Steps

end HakunaMatata.DemoClient
