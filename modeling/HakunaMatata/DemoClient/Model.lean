import HakunaMatata.CodecChain.Registration
import HakunaMatata.DemoServer.Model

/-!
# The demo client of the custom TCP protocol, `client_peer.cpp`

The client logs in when it is connected. At each timer it sends a ping and, once the login was
answered, a request to add some random numbers. The answers go to its log. The messages are those
of `demo_msg.h`, and the dispatcher finds the callback of an answer in the table that
`initDispatcher` fills. What the peer does to its socket is kept in the order in which it happens,
as for the peer of the server.
-/

namespace HakunaMatata.DemoClient

open Base CodecBytes CodecChain DemoServer

/-- What the client writes to its log about an answer. -/
inductive Report where
  | pong (sec nsec : Nat)
  | loginFailed
  | loginSuccess
  | sum (reqId : Nat) (sum : Int)
  deriving DecidableEq, Repr

/-- `ClientPeer` with its session. -/
structure ClientPeer where
  reqId : UInt32
  isLogined : Bool
  actions : List Action
  log : List Report
  deriving DecidableEq, Repr

/-- `ClientPeer::ClientPeer`. -/
def ClientPeer.start : ClientPeer where
  reqId := 0
  isLogined := false
  actions := []
  log := []

/-- `Session::Close`. -/
def ClientPeer.close (peer : ClientPeer) : ClientPeer :=
  { peer with actions := peer.actions ++ [.shutdown] }

/-- `Session::sendMessage`. -/
def ClientPeer.send (peer : ClientPeer) (message : Message) : ClientPeer :=
  { peer with actions := peer.actions ++ [.send message] }

/-- `LOG_INFO` and `LOG_ERROR`. -/
def ClientPeer.report (peer : ClientPeer) (report : Report) : ClientPeer :=
  { peer with log := peer.log ++ [report] }

/-- `strncpy` of a string into an array of zeros, of which it leaves the last byte. -/
def strncpy (size : Nat) (text : List UInt8) : List UInt8 :=
  (text.take (size - 1)).rightpad size 0

/-- `"foo"`. -/
def userId : List UInt8 := [0x66, 0x6F, 0x6F]

/-- `"123456"`. -/
def password : List UInt8 := [0x31, 0x32, 0x33, 0x34, 0x35, 0x36]

section Messages

variable (endian : Endian)

/-- The message with a `demo_msg_req_login_t`. -/
def loginMessage (reqId : UInt32) : Message :=
  ⟨reqLogin, storeWord endian 4 reqId.toNat ++ (strncpy 16 userId ++ strncpy 32 password)⟩

/-- The message with a `demo_msg_ping_t`. -/
def pingMessage (sec : UInt64) (nsec : UInt32) : Message :=
  ⟨ping, storeWord endian 8 sec.toNat ++ storeWord endian 4 nsec.toNat⟩

/-- A number in the array of a sum request. -/
def numberBytes (number : Int) : List UInt8 :=
  storeWord endian 4 (BitVec.ofInt 32 number).toNat

/-- The message with a `demo_msg_req_sum_t` and the array behind it. -/
def sumMessage (reqId : UInt32) (numbers : List Int) : Message :=
  ⟨reqSum, storeWord endian 4 reqId.toNat ++ (storeWord endian 4 numbers.length ++
    (numbers.map (numberBytes endian)).flatten)⟩

end Messages

/-- The array of a sum request, from the results of `rand`: the first one gives the number of
elements. -/
def randomNumbers (rand : Nat → Nat) : List Int :=
  (List.range (rand 0 % 10 + 1)).map fun i => ((rand (i + 1) % 201 : Nat) : Int) - 100

section Peer

variable (endian : Endian) (peer : ClientPeer)

/-- `ClientPeer::onConnection`. -/
def onConnection : ClientPeer :=
  { peer with reqId := peer.reqId + 1 }.send (loginMessage endian peer.reqId)

/-- `ClientPeer::onTimer`, with the time and the results of `rand`. -/
def onTimer (sec : UInt64) (nsec : UInt32) (rand : Nat → Nat) : ClientPeer :=
  let peer := peer.send (pingMessage endian sec nsec)
  if peer.isLogined then
    { peer with reqId := peer.reqId + 1 }.send (sumMessage endian peer.reqId (randomNumbers rand))
  else peer

variable (msg : List UInt8)

/-- `ClientPeer::onPong`. -/
def onPong : Except Fault ClientPeer := do
  let sec ← bytesAt msg 16 8
  let nsec ← bytesAt msg 24 4
  return peer.report (.pong (loadWord endian sec) (loadWord endian nsec))

/-- `ClientPeer::onRspLogin`. -/
def onRspLogin : Except Fault ClientPeer := do
  let loginResult ← load msg 20
  if loginResult = 0 then return (peer.report .loginFailed).close
  else return { peer with isLogined := true }.report .loginSuccess

/-- `ClientPeer::onRspSum`. -/
def onRspSum : Except Fault ClientPeer := do
  let reqId ← readWord endian msg 16
  let sum ← readWord endian msg 20
  return peer.report (.sum reqId (BitVec.ofNat 32 sum).toInt)

end Peer

/-- The functions that `CALLBACK_IMPL` defines in the client. -/
inductive Callback where
  | onPong
  | onRspLogin
  | onRspSum
  deriving DecidableEq, Repr

/-- The calls of `initDispatcher` that register callbacks. -/
def initDispatcher : List (Call Callback) :=
  [.setTotalMessage 7 true, .registerCallback pong (some .onPong),
    .registerCallback rspLogin (some .onRspLogin), .registerCallback rspSum (some .onRspSum)]

/-- `total_msg_` and `callbacks_` of the dispatcher of the client. -/
def registry : Registry Callback :=
  match Registry.new.calls initDispatcher with
  | .ok (_, registry) => registry
  | .error _ => .new

/-- The end of `Dispatcher::decode`, with the callbacks of the client. -/
def dispatch (endian : Endian) (peer : ClientPeer) (msg : List UInt8) :
    Except Fault ClientPeer := do
  match ← callbackOf endian registry msg with
  | some .onPong => onPong endian peer msg
  | some .onRspLogin => onRspLogin peer msg
  | some .onRspSum => onRspSum endian peer msg
  | none => return peer

end HakunaMatata.DemoClient
