import HakunaMatata.Pfpa.Packet
import Mathlib.Logic.Function.Basic

/-!
# Filters and TCP sessions of the packet analyser, `pfpa_context.c` and `pfpa_tcp_handle.c`

The keys of both hash tables are C structs that are compared with `memcmp`, so that the two
padding bytes of `pfpa_addr_t` are part of the key. The hash tables belong to another library
and are taken as correct maps for these comparisons. The sessions live on a heap: a table holds
their addresses, `free` makes an address invalid, and a read or a write of a freed session is a
fault. What a program never assigned is an argument: the memory of the filter tuples, of the
tuple that `checkFilter` searches, and of the key of the other direction.
-/

namespace HakunaMatata.Pfpa

open Base

/-- `pfpa_addr_t`. `pad` are its two padding bytes. -/
structure Addr where
  addr : UInt32
  port : UInt16
  pad : UInt16
  deriving DecidableEq, Repr

/-- The bytes of the struct in memory. -/
def Addr.bytes (tuple : Addr) : List UInt8 :=
  storeWord .little 4 tuple.addr.toNat ++
    (storeWord .little 2 tuple.port.toNat ++ storeWord .little 2 tuple.pad.toNat)

/-- `pfpa_conn_key_t`. -/
structure ConnKey where
  src : Addr
  dst : Addr
  deriving DecidableEq, Repr

/-- The bytes of the key in memory. -/
def ConnKey.bytes (key : ConnKey) : List UInt8 :=
  key.src.bytes ++ key.dst.bytes

/-- `pfpa_filter_cmp`, a `memcmp`. -/
def filterCmp (d1 d2 : Addr) : Bool :=
  d1.bytes == d2.bytes

/-- `pfpa_tcp_session_cmp`, a `memcmp`. -/
def tcpSessionCmp (d1 d2 : ConnKey) : Bool :=
  d1.bytes == d2.bytes

/-! ## The filter -/

/-- An option `-f`: an address, and a port if there is a colon. -/
structure FilterOption where
  addr : UInt32
  port : Option UInt16
  deriving DecidableEq, Repr

/-- What `malloc` leaves in the fields of a filter tuple that may stay unassigned. -/
structure TupleMemory where
  port : UInt16
  pad : UInt16
  deriving DecidableEq, Repr

/-- The tuple of an option: the port is assigned only if the option has one. -/
def FilterOption.tuple (option : FilterOption) (memory : TupleMemory) : Addr where
  addr := option.addr
  port := option.port.getD memory.port
  pad := memory.pad

/-- The filter of a context. -/
structure Filter where
  enableFilter : Bool
  filterDict : List Addr
  deriving DecidableEq, Repr

/-- `muggle_hash_table_find` in the filters. -/
def Filter.find (filter : Filter) (tuple : Addr) : Bool :=
  filter.filterDict.any fun stored => filterCmp stored tuple

/-- `pfpa_ctx_check_filter`. `pad` is what the stack holds in the padding of `tuple`. -/
def checkFilter (filter : Filter) (pad : UInt16) (packet : PacketContext) : Bool :=
  if filter.enableFilter = false then true
  else filter.find ⟨packet.srcAddr, 0, pad⟩ || filter.find ⟨packet.srcAddr, packet.srcPort, pad⟩ ||
    filter.find ⟨packet.dstAddr, 0, pad⟩ || filter.find ⟨packet.dstAddr, packet.dstPort, pad⟩

/-- The filter of the options. `memory` is what the tuple of each option had at first. -/
def filterOf (options : List FilterOption) (memory : Nat → TupleMemory) : Filter where
  enableFilter := !options.isEmpty
  filterDict := options.mapIdx fun i option => option.tuple (memory i)

/-! ## The sessions -/

/-- `PFPA_TCP_STATUS_*`. -/
inductive Status where
  | null
  | synSent
  | synAck
  | established
  | finSent
  | finAck
  deriving DecidableEq, Repr

/-- `pfpa_tcp_session_t`, with some byte buffer. -/
structure TcpSession (β : Type) where
  key : ConnKey
  status : Status
  seq : UInt32
  bytesBuf : β

/-- The sessions of a context: the heap, the next address that `malloc` returns, and the
addresses in `tcp_session_dict`. -/
structure SessionTable (β : Type) where
  heap : Nat → Option (TcpSession β)
  next : Nat
  dict : List Nat

/-- What the analyser gets from its user: an empty byte buffer, and the callback, which may
change the byte buffer of the session. -/
structure Application (β : Type) where
  emptyBuf : β
  tcpCallback : Option (PacketContext → β → β)

section Table

variable {β : Type}

/-- The table at the start. -/
def SessionTable.empty : SessionTable β where
  heap _ := none
  next := 0
  dict := []

/-- Read a session through a pointer. -/
def SessionTable.load (table : SessionTable β) (address : Nat) : Except Fault (TcpSession β) :=
  (table.heap address).elim (.error .outOfBounds) .ok

/-- Write a session through a pointer. -/
def SessionTable.store (table : SessionTable β) (address : Nat) (session : TcpSession β) :
    Except Fault (SessionTable β) :=
  if (table.heap address).isSome then
    .ok { table with heap := Function.update table.heap address (some session) }
  else .error .outOfBounds

/-- `pfpa_ctx_find_tcp_session`. -/
def SessionTable.find (table : SessionTable β) (key : ConnKey) : Option Nat :=
  table.dict.find? fun address =>
    (table.heap address).any fun session => tcpSessionCmp session.key key

/-- `malloc` of a session and `pfpa_ctx_add_tcp_session`. -/
def SessionTable.add (table : SessionTable β) (session : TcpSession β) : SessionTable β where
  heap := Function.update table.heap table.next (some session)
  next := table.next + 1
  dict := table.next :: table.dict

/-- Take an address out of the table and free the session. -/
def SessionTable.free (table : SessionTable β) (address : Nat) : SessionTable β where
  heap := Function.update table.heap address none
  next := table.next
  dict := table.dict.erase address

/-- `pfpa_ctx_remove_tcp_session`. -/
def SessionTable.remove (table : SessionTable β) (key : ConnKey) : SessionTable β :=
  (table.find key).elim table table.free

end Table

section Handle

variable {β : Type} (app : Application β)

/-- `conn_key`, which is cleared before the fields are assigned. -/
def connKey (packet : PacketContext) : ConnKey where
  src := ⟨packet.srcAddr, packet.srcPort, 0⟩
  dst := ⟨packet.dstAddr, packet.dstPort, 0⟩

/-- What the stack holds in the padding of `remote_key`. -/
structure KeyMemory where
  src : UInt16
  dst : UInt16
  deriving DecidableEq, Repr

/-- `remote_key`, of which only the fields are assigned. -/
def ConnKey.remote (key : ConnKey) (memory : KeyMemory) : ConnKey where
  src := ⟨key.dst.addr, key.dst.port, memory.src⟩
  dst := ⟨key.src.addr, key.src.port, memory.dst⟩

/-- The session of a packet: its address, whether it was found, and the table with it. -/
structure Opened (β : Type) where
  address : Nat
  found : Bool
  table : SessionTable β

/-- A new session. -/
def newSession (key : ConnKey) (hdr : TcpHdr) : TcpSession β where
  key := key
  status := .established
  seq := hdr.seq
  bytesBuf := app.emptyBuf

/-- Find the session of the key or add it. -/
def openSession (table : SessionTable β) (key : ConnKey) (hdr : TcpHdr) : Opened β :=
  (table.find key).elim ⟨table.next, false, table.add (newSession app key hdr)⟩
    fun address => ⟨address, true, table⟩

/-- The callback and the sequence number. An unexpected sequence number is only logged. -/
def receive (packet : PacketContext) (hdr : TcpHdr) (session : TcpSession β) : TcpSession β :=
  { session with
    bytesBuf := app.tcpCallback.elim session.bytesBuf fun callback =>
      callback packet session.bytesBuf
    seq := if hdr.syn || hdr.fin then session.seq + 1 else hdr.seq + packet.datalen }

/-- The session of this address has sent its FIN. -/
def finSentAt (table : SessionTable β) (address : Nat) : Except Fault Bool := do
  let session ← table.load address
  return session.status == .finSent

/-- Both directions have sent their FIN and this packet has an ACK. -/
def disconnects (table : SessionTable β) (address : Nat) (remote : ConnKey) (hdr : TcpHdr) :
    Except Fault Bool := do
  let sent ← finSentAt table address
  if sent && hdr.ack then (table.find remote).elim (return false) (finSentAt table)
  else return false

/-- What a packet did to the table. -/
structure Handled where
  found : Bool
  removed : Bool
  deriving DecidableEq, Repr

/-- The state before the last statement of `pfpa_tcp_packet_handle`: the pointer `session`. -/
structure Updated (β : Type) where
  address : Nat
  handled : Handled
  table : SessionTable β

/-- `pfpa_tcp_packet_handle` without its last statement. -/
def tcpPacketUpdate (memory : KeyMemory) (table : SessionTable β) (packet : PacketContext)
    (hdr : TcpHdr) : Except Fault (Updated β) := do
  let key := connKey packet
  let opened := openSession app table key hdr
  let session ← opened.table.load opened.address
  let table ← opened.table.store opened.address (receive app packet hdr session)
  let remote := key.remote memory
  let removed ← disconnects table opened.address remote hdr
  return ⟨opened.address, ⟨opened.found, removed⟩,
    if removed then (table.remove key).remove remote else table⟩

/-- The last statement: a FIN sets the status through the pointer `session`. -/
def markFin (hdr : TcpHdr) (updated : Updated β) : Except Fault (SessionTable β) := do
  if hdr.fin then
    let session ← updated.table.load updated.address
    updated.table.store updated.address { session with status := .finSent }
  else return updated.table

/-- `pfpa_tcp_packet_handle`: what it did to the table, and the table. -/
def tcpPacketHandle (memory : KeyMemory) (table : SessionTable β) (packet : PacketContext)
    (hdr : TcpHdr) : Except Fault (Handled × SessionTable β) := do
  let updated ← tcpPacketUpdate app memory table packet hdr
  let table ← markFin hdr updated
  return (updated.handled, table)

end Handle

end HakunaMatata.Pfpa
