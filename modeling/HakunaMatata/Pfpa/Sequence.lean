import HakunaMatata.Pfpa.Sessions
import Mathlib.Data.List.Chain

/-!
# The expected sequence number of a TCP session

`pfpa_tcp_packet_handle` keeps in `session->seq` the sequence number of the next packet of the
direction, and logs a warning if a packet has another one. A packet with SYN or FIN only adds one
to what the session had, whatever the packet carries, and every other packet sets the session to
the end of its payload. The runs here mix packets of any number of connections. `History` adds to
the table the last packet of each direction, so that a run can say which packet is followed by
which.
-/

namespace HakunaMatata.Pfpa

open Base

namespace TcpPacket

/-- The direction of the packet, the key of its session. -/
def key (packet : TcpPacket) : ConnKey :=
  connKey packet.ctx

/-- The test `tcp_hdr->syn || tcp_hdr->fin`. -/
def synOrFin (packet : TcpPacket) : Bool :=
  packet.hdr.syn || packet.hdr.fin

/-- The sequence numbers that the packet takes: one for each byte, one for SYN, one for FIN. -/
def carried (packet : TcpPacket) : UInt32 :=
  packet.ctx.datalen + (if packet.hdr.syn then 1 else 0) + (if packet.hdr.fin then 1 else 0)

/-- The sequence number behind the packet. -/
def next (packet : TcpPacket) : UInt32 :=
  packet.hdr.seq + packet.carried

/-- A packet without SYN and FIN takes as many sequence numbers as it has bytes. -/
theorem next_of_plain {packet : TcpPacket} (h : packet.synOrFin = false) :
    packet.next = packet.hdr.seq + packet.ctx.datalen := by
  obtain ⟨hsyn, hfin⟩ := Bool.or_eq_false_iff.1 h
  rw [next, carried, hsyn, hfin, if_neg Bool.false_ne_true, UInt32.add_zero, UInt32.add_zero]

end TcpPacket

section Sequence

variable {β : Type} (app : Application β)

/-- The test behind the warning `unexpected seq`: the session of the packet, which may be new,
has another sequence number. -/
def unexpectedSeq (table : SessionTable β) (packet : TcpPacket) : Except Fault Bool := do
  let opened := openSession app table packet.key packet.hdr
  let session ← opened.table.load opened.address
  return session.seq != packet.hdr.seq

/-- A packet, and what the stack holds in the padding of `remote_key` while it is handled. -/
structure Arrival where
  memory : KeyMemory
  packet : TcpPacket
  deriving DecidableEq, Repr

/-- The session table and the last packet of each direction. -/
structure History (β : Type) where
  table : SessionTable β
  last : ConnKey → Option TcpPacket

/-- The start of a capture. -/
def History.start : History β where
  table := .empty
  last _ := none

/-- Handle a packet. -/
def History.arrive (history : History β) (arrival : Arrival) : Except Fault (History β) := do
  let result ← tcpPacketHandle app arrival.memory history.table arrival.packet.ctx
    arrival.packet.hdr
  return ⟨result.2, Function.update history.last arrival.packet.key (some arrival.packet)⟩

/-! ## Sequence numbers along a run -/

/-- If the packet does not remove its session, the session then expects the sequence number
behind the packet. -/
def ExpectsNext (history : History β) (arrival : Arrival) : Prop :=
  ∀ handled table, tcpPacketHandle app arrival.memory history.table arrival.packet.ctx
      arrival.packet.hdr = .ok (handled, table) → handled.removed = false →
    ∃ session, view table arrival.packet.key = some session ∧ session.seq = arrival.packet.next

/-- The sequence number that the session of the packet had, or got from it if it is new. -/
def expectedSeq (table : SessionTable β) (packet : TcpPacket) : UInt32 :=
  (view table packet.key).elim packet.hdr.seq TcpSession.seq

/-- Where the packet starts, by the packets before it: at the end of the previous one of its
direction if the session is there, at its own sequence number if it is the first of a session. -/
def History.startOf (history : History β) (packet : TcpPacket) : UInt32 :=
  if (view history.table packet.key).isSome then
    (history.last packet.key).elim packet.hdr.seq TcpPacket.next
  else packet.hdr.seq

/-- A packet with SYN or FIN that does not remove its session ends one behind its start. -/
def EndsOneBehind (history : History β) (arrival : Arrival) : Prop :=
  arrival.packet.synOrFin = true →
    disconnecting arrival.memory arrival.packet.ctx arrival.packet.hdr history.table = false →
      history.startOf arrival.packet + 1 = arrival.packet.next

variable (key : ConnKey)

/-- The packets of the direction are in order and without gaps. -/
def InOrder (arrivals : List Arrival) : Prop :=
  ((arrivals.map Arrival.packet).filter fun packet => packet.key = key).IsChain
    fun packet following => following.hdr.seq = packet.next

instance (arrivals : List Arrival) : Decidable (InOrder key arrivals) :=
  inferInstanceAs (Decidable (List.IsChain _ _))

/-- A packet of the direction is handled without the warning. -/
def NoWarning (history : History β) (arrival : Arrival) : Prop :=
  arrival.packet.key = key → unexpectedSeq app history.table arrival.packet = .ok false

/-- If a packet of the direction has SYN or FIN and its session is still there when the next one
arrives, it takes one sequence number. -/
def OneTaken (history : History β) (arrival : Arrival) : Prop :=
  arrival.packet.key = key → (view history.table key).isSome →
    ∀ packet ∈ history.last key, packet.synOrFin = true → packet.carried = 1

/-! ## One packet -/

variable {app key} {history history' : History β} {arrival : Arrival}

/-- The sequence number of the session that a packet leaves behind. -/
theorem marked_received_seq (app : Application β) (table : SessionTable β) (packet : TcpPacket) :
    (marked packet.hdr (received app packet.ctx packet.hdr table)).seq =
      if packet.synOrFin then expectedSeq table packet + 1 else packet.next := by
  have hseq : (marked packet.hdr (received app packet.ctx packet.hdr table)).seq =
      if packet.synOrFin then expectedSeq table packet + 1
      else packet.hdr.seq + packet.ctx.datalen := by
    unfold received expectedSeq
    rw [show connKey packet.ctx = packet.key from rfl]
    cases view table packet.key with
    | none => rfl
    | some session => rfl
  rw [hseq]
  cases hflags : packet.synOrFin with
  | true => rfl
  | false => rw [TcpPacket.next_of_plain hflags]

theorem unexpectedSeq_eq {table : SessionTable β} (h : Valid table) (packet : TcpPacket) :
    unexpectedSeq app table packet = .ok (expectedSeq table packet != packet.hdr.seq) := by
  obtain ⟨_, _, hentry, _⟩ := openSession_spec app packet.hdr h packet.key ⟨rfl, rfl⟩
  unfold unexpectedSeq expectedSeq
  simp only [load_of_entry hentry, ok_bind]
  cases view table packet.key with
  | none => rfl
  | some session => rfl

theorem noWarning_iff (h : Valid history.table) : NoWarning app key history arrival ↔
    (arrival.packet.key = key →
      expectedSeq history.table arrival.packet = arrival.packet.hdr.seq) := by
  unfold NoWarning
  rw [unexpectedSeq_eq h, Except.ok.injEq, bne_eq_false_iff_eq]

/-- A session is left right exactly if the packet has neither SYN nor FIN, or ends one behind what
the session expected. -/
theorem expectsNext_iff (h : Valid history.table) :
    ExpectsNext app history arrival ↔ (arrival.packet.synOrFin = true →
      disconnecting arrival.memory arrival.packet.ctx arrival.packet.hdr history.table = false →
        expectedSeq history.table arrival.packet + 1 = arrival.packet.next) := by
  have hseq := marked_received_seq app history.table arrival.packet
  constructor
  · intro hexpects hflags hstays
    have hlate : ¬ (disconnecting arrival.memory arrival.packet.ctx arrival.packet.hdr
        history.table = true ∧ arrival.packet.hdr.fin = true) := by
      rw [hstays]
      exact fun hboth => Bool.false_ne_true hboth.1
    obtain ⟨table, hhandle, _, hview⟩ := tcpPacketHandle_spec app _ _ _ h hlate
    obtain ⟨session, hsession, hnext⟩ := hexpects _ _ hhandle hstays
    rw [hview, nextView, hstays, if_neg Bool.false_ne_true] at hsession
    cases (Function.update_self ..).symm.trans hsession
    rw [← hnext, hseq, if_pos hflags]
  · intro hends handled table hhandle hremoved
    obtain ⟨rfl, _, hview⟩ := tcpPacketHandle_eq_ok app _ _ _ h hhandle
    have hstays : disconnecting arrival.memory arrival.packet.ctx arrival.packet.hdr
      history.table = false := hremoved
    refine ⟨_, ?_, hseq.trans ?_⟩
    · rw [hview, nextView, hstays, if_neg Bool.false_ne_true]
      exact Function.update_self ..
    · cases hflags : arrival.packet.synOrFin with
      | true => exact hends hflags hstays
      | false => rfl

theorem arrive_last (harrive : history.arrive app arrival = .ok history') :
    history'.last = Function.update history.last arrival.packet.key (some arrival.packet) := by
  obtain ⟨result, _, hhistory⟩ := bind_eq_ok.mp harrive
  cases hhistory
  rfl

theorem arrive_table (h : Valid history.table)
    (harrive : history.arrive app arrival = .ok history') :
    Valid history'.table ∧
      view history'.table = nextView arrival.memory arrival.packet.ctx arrival.packet.hdr
        (marked arrival.packet.hdr
          (received app arrival.packet.ctx arrival.packet.hdr history.table)) history.table := by
  obtain ⟨result, hhandle, hhistory⟩ := bind_eq_ok.mp harrive
  cases hhistory
  exact (tcpPacketHandle_eq_ok app _ _ _ h hhandle).2

/-- A session that is there after a packet is the one that the packet left, or was there
before. -/
theorem session_of_nextView {memory : KeyMemory} {packet : PacketContext} {hdr : TcpHdr}
    {table : SessionTable β} {left session : TcpSession β}
    (h : nextView memory packet hdr left table key = some session) :
    (key = connKey packet ∧ session = left ∧ disconnecting memory packet hdr table = false) ∨
      (key ≠ connKey packet ∧ view table key = some session) := by
  unfold nextView at h
  by_cases hkey : key = connKey packet
  · refine .inl ⟨hkey, ?_⟩
    subst hkey
    split_ifs at h with hremoved
    · rw [Function.update_apply, Function.update_self, ite_self] at h
      cases h
    · rw [Function.update_self] at h
      cases h
      exact ⟨rfl, by simpa using hremoved⟩
  · refine .inr ⟨hkey, ?_⟩
    split_ifs at h
    · rw [Function.update_apply, Function.update_of_ne hkey] at h
      split_ifs at h
      exact h
    · rwa [Function.update_of_ne hkey] at h

/-- A session that is there after a packet is that of the packet, or it and its last packet are as
before. -/
theorem session_of_arrive (h : Valid history.table)
    (harrive : history.arrive app arrival = .ok history') {session : TcpSession β}
    (hsession : view history'.table key = some session) :
    (key = arrival.packet.key ∧ history'.last key = some arrival.packet ∧
      disconnecting arrival.memory arrival.packet.ctx arrival.packet.hdr history.table = false ∧
      session.seq = if arrival.packet.synOrFin then
        expectedSeq history.table arrival.packet + 1 else arrival.packet.next) ∨
    (view history.table key = some session ∧ history'.last key = history.last key) := by
  rw [(arrive_table h harrive).2] at hsession
  rw [arrive_last harrive]
  rcases session_of_nextView hsession with ⟨rfl, rfl, hstays⟩ | ⟨hkey, hbefore⟩
  · exact .inl ⟨rfl, Function.update_self .., hstays, marked_received_seq ..⟩
  · exact .inr ⟨hbefore, Function.update_of_ne hkey ..⟩

/-! ## Runs -/

/-- Every session has the sequence number behind the last packet of its direction. -/
structure Reaches (history : History β) : Prop where
  valid : Valid history.table
  seq : ∀ key session, view history.table key = some session →
    ∃ packet, history.last key = some packet ∧ session.seq = packet.next

theorem reaches_start : Reaches (.start : History β) where
  valid := valid_empty
  seq _ _ h := by cases h

/-- The session of a packet then expects it at its start. -/
theorem Reaches.expectedSeq_eq (h : Reaches history) (packet : TcpPacket) :
    expectedSeq history.table packet = history.startOf packet := by
  unfold expectedSeq History.startOf
  cases hview : view history.table packet.key with
  | none => rfl
  | some session =>
    obtain ⟨previous, hlast, hseq⟩ := h.seq packet.key session hview
    rw [hlast]
    exact hseq

theorem Reaches.expectsNext_iff (h : Reaches history) :
    ExpectsNext app history arrival ↔ EndsOneBehind history arrival := by
  rw [Pfpa.expectsNext_iff h.valid, h.expectedSeq_eq]
  rfl

theorem Reaches.arrive (h : Reaches history) (harrive : history.arrive app arrival = .ok history')
    (hexpects : ExpectsNext app history arrival) : Reaches history' := by
  refine ⟨(arrive_table h.valid harrive).1, fun key session hsession => ?_⟩
  rcases session_of_arrive h.valid harrive hsession with
    ⟨_, hlast, hstays, hseq⟩ | ⟨hbefore, hlast⟩
  · refine ⟨arrival.packet, hlast, hseq.trans ?_⟩
    cases hflags : arrival.packet.synOrFin with
    | true => exact (Pfpa.expectsNext_iff h.valid).1 hexpects hflags hstays
    | false => rfl
  · rw [hlast]
    exact h.seq key session hbefore

/-- Without a warning so far, the session of the direction expects what the last packet of the
direction left: one more than its sequence number after SYN or FIN, its end otherwise. -/
structure Follows (key : ConnKey) (history : History β) : Prop where
  valid : Valid history.table
  seq : ∀ session, view history.table key = some session →
    ∃ packet, history.last key = some packet ∧
      session.seq = if packet.synOrFin then packet.hdr.seq + 1 else packet.next

theorem follows_start (key : ConnKey) : Follows key (.start : History β) where
  valid := valid_empty
  seq _ h := by cases h

theorem Follows.arrive (h : Follows key history)
    (harrive : history.arrive app arrival = .ok history')
    (hquiet : NoWarning app key history arrival) : Follows key history' := by
  refine ⟨(arrive_table h.valid harrive).1, fun session hsession => ?_⟩
  rcases session_of_arrive h.valid harrive hsession with ⟨rfl, hlast, _, hseq⟩ | ⟨hbefore, hlast⟩
  · refine ⟨arrival.packet, hlast, ?_⟩
    rw [hseq, (noWarning_iff h.valid).1 hquiet rfl]
  · rw [hlast]
    exact h.seq session hbefore

/-- The next packet of the direction, if there is one, starts where the last one ended. -/
def Continues (key : ConnKey) (history : History β) (arrival : Arrival) : Prop :=
  arrival.packet.key = key →
    ∀ packet ∈ history.last key, arrival.packet.hdr.seq = packet.next

/-- A packet that continues its direction is expected exactly if the last one took one sequence
number or had neither SYN nor FIN. -/
theorem Follows.noWarning_iff_oneTaken (h : Follows key history)
    (hcontinues : Continues key history arrival) :
    NoWarning app key history arrival ↔ OneTaken key history arrival := by
  rw [noWarning_iff h.valid]
  refine forall_congr' fun hkey => ?_
  unfold expectedSeq
  rw [hkey]
  cases hview : view history.table key with
  | none => exact ⟨fun _ hsome => absurd hsome Bool.false_ne_true, fun _ => rfl⟩
  | some session =>
    obtain ⟨packet, hlast, hseq⟩ := h.seq session hview
    rw [hcontinues hkey packet hlast, hlast]
    simp only [Option.elim_some, Option.isSome_some, forall_const, Option.mem_some_iff,
      forall_eq', hseq]
    cases packet.synOrFin with
    | false => simp
    | true => simp [TcpPacket.next, eq_comm]

/-- A direction in order continues with each of its packets. -/
theorem along_continues (app : Application β) {arrivals : List Arrival}
    (h : ((history.last key).toList ++
      (arrivals.map Arrival.packet).filter fun packet => packet.key = key).IsChain
        fun packet following => following.hdr.seq = packet.next) :
    Along (History.arrive app) (Continues key) history arrivals := by
  induction arrivals generalizing history with
  | nil => trivial
  | cons arrival arrivals ih =>
    rw [List.map_cons] at h
    by_cases hkey : arrival.packet.key = key
    · rw [List.filter_cons_of_pos (by simpa using hkey)] at h
      constructor
      · intro _ packet hlast
        rw [Option.mem_def.1 hlast] at h
        exact (List.isChain_cons_cons.1 h).1
      · intro history' harrive
        refine ih ?_
        rw [arrive_last harrive, hkey, Function.update_self]
        exact h.right_of_append
    · rw [List.filter_cons_of_neg (by simpa using hkey)] at h
      refine ⟨fun hself => absurd hself hkey, fun history' harrive => ih ?_⟩
      rwa [arrive_last harrive, Function.update_of_ne (Ne.symm hkey)]

/-- For every run of packets of any connections: each packet that does not remove its session
leaves it with the sequence number behind the packet, exactly if every packet with SYN or FIN that
does not remove its session ends one behind the end of the previous packet of its direction, or
behind its own sequence number if it is the first of its session. If the packets of a direction are
in order and without gaps, none of them is warned about exactly if each packet with SYN or FIN,
whose session is still there when the next one arrives, takes one sequence number. -/
theorem expected_seq_iff (app : Application β) (arrivals : List Arrival) :
    (Along (History.arrive app) (ExpectsNext app) .start arrivals ↔
      Along (History.arrive app) EndsOneBehind .start arrivals) ∧
    ∀ key, InOrder key arrivals →
      (Along (History.arrive app) (NoWarning app key) .start arrivals ↔
        Along (History.arrive app) (OneTaken key) .start arrivals) := by
  constructor
  · exact along_congr_of_kept (fun _ _ (h : Reaches _) => h.expectsNext_iff)
      (fun _ _ _ h harrive hexpects => h.arrive harrive hexpects) reaches_start
  · intro key horder
    have hcontinues : Along (History.arrive app) (Continues key) .start arrivals :=
      along_continues app horder
    -- the two conditions agree at each packet that continues its direction
    have hboth : Along (History.arrive app) (fun history arrival =>
          Continues key history arrival ∧ NoWarning app key history arrival) .start arrivals ↔
        Along (History.arrive app) (fun history arrival =>
          Continues key history arrival ∧ OneTaken key history arrival) .start arrivals :=
      along_congr_of_kept
        (fun _ _ (h : Follows key _) => and_congr_right fun hnext => h.noWarning_iff_oneTaken hnext)
        (fun _ _ _ h harrive hmeets => h.arrive harrive hmeets.2) (follows_start key)
    rw [along_and, along_and] at hboth
    exact ⟨fun h => (hboth.1 ⟨hcontinues, h⟩).2, fun h => (hboth.2 ⟨hcontinues, h⟩).2⟩

end Sequence

/-- A packet from port 1 to port 2 with this sequence number, payload length and flags. -/
def oneWay (seq datalen : UInt32) (flags : UInt8) : Arrival where
  memory := ⟨0, 0⟩
  packet := ⟨⟨1, 1, 1, 2, 0, datalen⟩, ⟨seq, 0, flags⟩⟩

/-- The direction of these packets. -/
def oneWayKey : ConnKey where
  src := ⟨1, 1, 0⟩
  dst := ⟨1, 2, 0⟩

/-- SYN, three bytes and FIN, across the end of the sequence numbers. -/
def plainStream : List Arrival :=
  [oneWay 0xfffffffe 0 0x02, oneWay 0xffffffff 3 0x10, oneWay 2 0 0x11]

/-- The stream is in order, and nothing is logged. -/
theorem expected_seq_iff_plainStream : InOrder oneWayKey plainStream ∧
    Along (History.arrive ⟨(), none⟩) (NoWarning ⟨(), none⟩ oneWayKey) .start plainStream := by
  have horder : InOrder oneWayKey plainStream := by decide
  refine ⟨horder, ((expected_seq_iff ⟨(), none⟩ plainStream).2 oneWayKey horder).2 ?_⟩
  refine ⟨fun _ hsome => absurd hsome Bool.false_ne_true, fun _ hfirst => ?_⟩
  cases hfirst
  refine ⟨fun _ _ packet hlast _ => ?_, fun _ hsecond => ?_⟩
  · cases hlast
    rfl
  · cases hsecond
    refine ⟨fun _ _ packet hlast hflags => ?_, fun _ _ => trivial⟩
    cases hlast
    exact absurd hflags Bool.false_ne_true

/-- A SYN with one byte of data leaves the session one behind, so that the FIN which follows in
order is warned about. -/
theorem syn_data_unexpected : InOrder oneWayKey [oneWay 0 1 0x02, oneWay 2 0 0x11] ∧
    ¬ Along (History.arrive ⟨(), none⟩) (ExpectsNext ⟨(), none⟩) .start
      [oneWay 0 1 0x02, oneWay 2 0 0x11] ∧
    ¬ Along (History.arrive ⟨(), none⟩) (NoWarning ⟨(), none⟩ oneWayKey) .start
      [oneWay 0 1 0x02, oneWay 2 0 0x11] := by
  refine ⟨by decide, fun h => ?_, fun h => ?_⟩
  · obtain ⟨session, hsession, hseq⟩ := h.1 _ _ rfl rfl
    cases hsession
    exact absurd hseq (by decide)
  · have hwarned := (h.2 _ rfl).1 rfl
    cases hwarned

end HakunaMatata.Pfpa
