import HakunaMatata.Pfpa.Sessions

/-!
# Decisions of the packet analyser and unassigned memory

`analyser` runs the packet handlers on a packet sequence and returns what was decided for each
packet: whether the filter accepted it, whether its TCP session was found or created, and whether
sessions were removed. The contents of the memory that the program never assigns are an argument.
`independent_iff` is the exact condition under which the decisions do not depend on it. With a
filter, no packet may match any option; without one, no packet may disconnect.
-/

namespace HakunaMatata.Pfpa

open Base

/-! ## Runs of the analyser -/

/-- What the stack holds during one packet: in the padding of `tuple` and of `remote_key`. -/
structure StackMemory where
  tuplePad : UInt16
  remoteKey : KeyMemory
  deriving DecidableEq, Repr

/-- Memory that the program does not assign: of the filter tuple of each option, and of the
stack at each packet. -/
structure Memory where
  tuples : Nat → TupleMemory
  stack : Nat → StackMemory

/-- Memory of zeroes. -/
def Memory.zero : Memory where
  tuples _ := ⟨0, 0⟩
  stack _ := ⟨0, ⟨0, 0⟩⟩

/-- A packet that reaches the filter. -/
inductive Packet where
  | tcp (packet : TcpPacket)
  | udp (ctx : PacketContext)
  deriving DecidableEq, Repr

/-- The packet context. -/
def Packet.ctx : Packet → PacketContext
  | .tcp packet => packet.ctx
  | .udp ctx => ctx

/-- What was decided for a packet. -/
inductive Decision where
  | rejected
  | udp
  | tcp (handled : Handled)
  | fault
  deriving DecidableEq, Repr

section Analyse

variable {β : Type} (app : Application β)

/-- A packet that the filter accepted: the decision, and the table if there was no fault. -/
def handleAccepted (memory : KeyMemory) (table : SessionTable β) :
    Packet → Decision × Option (SessionTable β)
  | .udp _ => (.udp, some table)
  | .tcp packet =>
    (tcpPacketHandle app memory table packet.ctx packet.hdr).toOption.elim (.fault, none)
      fun result => (.tcp result.1, some result.2)

/-- One packet. -/
def analysePacket (filter : Filter) (memory : StackMemory) (table : SessionTable β)
    (packet : Packet) : Decision × Option (SessionTable β) :=
  if checkFilter filter memory.tuplePad packet.ctx then
    handleAccepted app memory.remoteKey table packet
  else (.rejected, some table)

/-- The decisions for a packet sequence, up to a fault. -/
def analyse (filter : Filter) (stack : Nat → StackMemory) (table : SessionTable β) :
    List Packet → List Decision
  | [] => []
  | packet :: packets =>
    let result := analysePacket app filter (stack 0) table packet
    result.1 :: result.2.elim [] fun table =>
      analyse filter (fun n => stack (n + 1)) table packets

/-- The analyser with these options. -/
def analyser (options : List FilterOption) (memory : Memory) (packets : List Packet) :
    List Decision :=
  analyse app (filterOf options memory.tuples) memory.stack .empty packets

/-- The decisions are the same, whatever the memory holds. -/
def Independent (options : List FilterOption) (packets : List Packet) : Prop :=
  ∀ memory memory', analyser app options memory packets = analyser app options memory' packets

end Analyse

/-! ## The filter -/

section Filter

variable {options : List FilterOption} {packet : PacketContext}

/-- The option is for this end of a connection. An option without a port is for every port. -/
def FilterOption.For (option : FilterOption) (addr : UInt32) (port : UInt16) : Prop :=
  option.addr = addr ∧ (option.port.getD 0 = 0 ∨ option.port.getD 0 = port)

/-- The packet matches the option. -/
def FilterOption.Matches (option : FilterOption) (packet : PacketContext) : Prop :=
  option.For packet.srcAddr packet.srcPort ∨ option.For packet.dstAddr packet.dstPort

/-- Every packet of an address matches an option for that address without a port. -/
theorem matches_of_portless {option : FilterOption} (hport : option.port = none)
    (h : option.addr = packet.srcAddr ∨ option.addr = packet.dstAddr) : option.Matches packet := by
  have hzero : option.port.getD 0 = 0 := by rw [hport]; rfl
  exact h.imp (fun haddr => ⟨haddr, .inl hzero⟩) fun haddr => ⟨haddr, .inl hzero⟩

theorem find_filterOf_iff {memory : Nat → TupleMemory} {tuple : Addr} :
    (filterOf options memory).find tuple = true ↔
      ∃ (i : Nat) (option : FilterOption), options[i]? = some option ∧
        option.tuple (memory i) = tuple := by
  simp only [Filter.find, filterOf, List.any_eq_true, filterCmp_iff, List.mem_iff_getElem?,
    List.getElem?_mapIdx, Option.map_eq_some_iff]
  constructor
  · rintro ⟨_, ⟨i, option, hoption, rfl⟩, htuple⟩
    exact ⟨i, option, hoption, htuple⟩
  · rintro ⟨i, option, hoption, htuple⟩
    exact ⟨_, ⟨i, option, hoption, rfl⟩, htuple⟩

theorem for_of_find {memory : Nat → TupleMemory} {addr : UInt32} {port searched pad : UInt16}
    (hport : searched = 0 ∨ searched = port)
    (h : (filterOf options memory).find ⟨addr, searched, pad⟩ = true) :
    ∃ option ∈ options, option.For addr port := by
  obtain ⟨i, option, hoption, htuple⟩ := find_filterOf_iff.1 h
  refine ⟨option, List.mem_of_getElem? hoption, ?_⟩
  simp only [FilterOption.tuple, Addr.mk.injEq] at htuple
  refine ⟨htuple.1, ?_⟩
  cases hassigned : option.port with
  | none => exact .inl rfl
  | some assigned =>
    rw [hassigned] at htuple
    exact hport.imp htuple.2.1.trans htuple.2.1.trans

theorem find_of_for {option : FilterOption} (hoption : option ∈ options) {addr : UInt32}
    {port : UInt16} (h : option.For addr port) :
    (filterOf options Memory.zero.tuples).find ⟨addr, 0, 0⟩ = true ∨
      (filterOf options Memory.zero.tuples).find ⟨addr, port, 0⟩ = true := by
  obtain ⟨i, hi⟩ := List.mem_iff_getElem?.1 hoption
  obtain ⟨rfl, hport⟩ := h
  refine hport.imp (fun hzero => ?_) fun hzero => ?_
  · exact find_filterOf_iff.2 ⟨i, option, hi, congrArg (Addr.mk _ · _) hzero⟩
  · exact find_filterOf_iff.2 ⟨i, option, hi, congrArg (Addr.mk _ · _) hzero⟩

/-- With zeroed tuples nothing is found if the padding on the stack is not zero. -/
theorem find_of_padding {addr : UInt32} {port pad : UInt16} (hpad : pad ≠ 0) :
    (filterOf options Memory.zero.tuples).find ⟨addr, port, pad⟩ = false := by
  rw [← Bool.not_eq_true, find_filterOf_iff]
  rintro ⟨i, option, _, htuple⟩
  exact hpad (congrArg Addr.pad htuple).symm

/-- A packet is accepted with a filter if one of its four tuples is found. -/
theorem checkFilter_iff (hoptions : options ≠ []) {memory : Nat → TupleMemory} {pad : UInt16} :
    checkFilter (filterOf options memory) pad packet = true ↔
      ((filterOf options memory).find ⟨packet.srcAddr, 0, pad⟩ = true ∨
        (filterOf options memory).find ⟨packet.srcAddr, packet.srcPort, pad⟩ = true) ∨
      (filterOf options memory).find ⟨packet.dstAddr, 0, pad⟩ = true ∨
        (filterOf options memory).find ⟨packet.dstAddr, packet.dstPort, pad⟩ = true := by
  have henable : (filterOf options memory).enableFilter = true := by
    cases options with
    | nil => exact absurd rfl hoptions
    | cons option options => rfl
  simp only [checkFilter, henable, Bool.true_eq_false, if_false, Bool.or_eq_true, or_assoc]

/-- A packet that matches no option is rejected, whatever the memory holds. -/
theorem checkFilter_of_not_matches (hoptions : options ≠ [])
    (h : ∀ option ∈ options, ¬ option.Matches packet) (memory : Nat → TupleMemory)
    (pad : UInt16) : checkFilter (filterOf options memory) pad packet = false := by
  rw [← Bool.not_eq_true, checkFilter_iff hoptions]
  rintro ((hfind | hfind) | (hfind | hfind))
  · obtain ⟨option, hmem, hfor⟩ := for_of_find (.inl rfl) hfind
    exact h option hmem (.inl hfor)
  · obtain ⟨option, hmem, hfor⟩ := for_of_find (.inr rfl) hfind
    exact h option hmem (.inl hfor)
  · obtain ⟨option, hmem, hfor⟩ := for_of_find (.inl rfl) hfind
    exact h option hmem (.inr hfor)
  · obtain ⟨option, hmem, hfor⟩ := for_of_find (.inr rfl) hfind
    exact h option hmem (.inr hfor)

theorem checkFilter_zero {option : FilterOption} (hoption : option ∈ options)
    (h : option.Matches packet) :
    checkFilter (filterOf options Memory.zero.tuples) 0 packet = true := by
  rw [checkFilter_iff (List.ne_nil_of_mem hoption)]
  exact h.imp (find_of_for hoption) (find_of_for hoption)

/-- With zeroed tuples a packet is rejected if the padding on the stack is not zero. -/
theorem checkFilter_of_padding (hoptions : options ≠ []) {pad : UInt16} (hpad : pad ≠ 0) :
    checkFilter (filterOf options Memory.zero.tuples) pad packet = false := by
  rw [← Bool.not_eq_true, checkFilter_iff hoptions]
  simp only [find_of_padding hpad, Bool.false_eq_true, or_self, not_false_iff]

end Filter

/-! ## Independence -/

section Independence

variable {β : Type} {app : Application β} {filter : Filter} {options : List FilterOption}
  {table : SessionTable β} {packets : List Packet}

/-- The packet disconnects a session of the table, if the memory is zeroed. -/
def Packet.Disconnects (table : SessionTable β) : Packet → Prop
  | .udp _ => False
  | .tcp packet => disconnecting ⟨0, 0⟩ packet.ctx packet.hdr table = true

/-- No packet disconnects a session of the table before it, if the memory is zeroed. -/
def NeverDisconnects (app : Application β) : SessionTable β → List Packet → Prop
  | _, [] => True
  | table, packet :: packets => ¬ packet.Disconnects table ∧
      ∀ table' ∈ (handleAccepted app ⟨0, 0⟩ table packet).2, NeverDisconnects app table' packets

theorem handleAccepted_tcp (app : Application β) (h : Valid table) (memory : KeyMemory)
    (packet : TcpPacket) :
    (disconnecting memory packet.ctx packet.hdr table = true ∧
      handleAccepted app memory table (.tcp packet) = (.fault, none)) ∨
    ∃ found table', Valid table' ∧ handleAccepted app memory table (.tcp packet) =
      (.tcp ⟨found, disconnecting memory packet.ctx packet.hdr table⟩, some table') := by
  simp only [handleAccepted]
  by_cases hlate : disconnecting memory packet.ctx packet.hdr table = true ∧ packet.hdr.fin = true
  · rw [tcpPacketHandle_of_lateFin app _ _ _ h hlate.1 hlate.2]
    exact .inl ⟨hlate.1, rfl⟩
  · obtain ⟨table', hhandle, hvalid, _⟩ := tcpPacketHandle_spec app _ _ _ h hlate
    rw [hhandle]
    exact .inr ⟨_, table', hvalid, rfl⟩

/-- With padding nothing is removed, and a packet that disconnects with zeroed memory is decided
differently. -/
theorem handleAccepted_ne (app : Application β) (h : Valid table) {memory : KeyMemory}
    (hmemory : memory ≠ ⟨0, 0⟩) {packet : Packet} (hdisconnects : packet.Disconnects table) :
    (handleAccepted app memory table packet).1 ≠ (handleAccepted app ⟨0, 0⟩ table packet).1 := by
  cases packet with
  | udp ctx => exact hdisconnects.elim
  | tcp packet =>
    have hstays := disconnecting_of_padding memory packet.ctx packet.hdr h hmemory
    have hzero : disconnecting ⟨0, 0⟩ packet.ctx packet.hdr table = true := hdisconnects
    rcases handleAccepted_tcp app h memory packet with ⟨hlate, _⟩ | ⟨_, _, _, heq⟩
    · exact absurd (hstays.symm.trans hlate) Bool.false_ne_true
    · rcases handleAccepted_tcp app h ⟨0, 0⟩ packet with ⟨_, heq'⟩ | ⟨_, _, _, heq'⟩ <;>
        simp [heq, heq', hstays, hzero]

theorem Valid.handleAccepted {table' : SessionTable β} (h : Valid table) (memory : KeyMemory)
    (packet : Packet) (hnext : (Pfpa.handleAccepted app memory table packet).2 = some table') :
    Valid table' := by
  cases packet with
  | udp ctx =>
    cases hnext
    exact h
  | tcp packet =>
    rcases handleAccepted_tcp app h memory packet with ⟨_, heq⟩ | ⟨_, _, hvalid, heq⟩
    · rw [heq] at hnext
      cases hnext
    · rw [heq] at hnext
      cases hnext
      exact hvalid

/-- A packet that does not disconnect with zeroed memory is handled the same way with any memory. -/
theorem handleAccepted_congr (h : Valid table) (memory : KeyMemory) (packet : Packet)
    (hzero : ¬ packet.Disconnects table) :
    handleAccepted app memory table packet = handleAccepted app ⟨0, 0⟩ table packet := by
  cases packet with
  | udp ctx => rfl
  | tcp packet =>
    rw [Packet.Disconnects, Bool.not_eq_true] at hzero
    by_cases hmemory : memory = ⟨0, 0⟩
    · rw [hmemory]
    · have hother := disconnecting_of_padding memory packet.ctx packet.hdr h hmemory
      simp only [handleAccepted]
      rw [tcpPacketHandle_congr app _ _ h hother hzero]

/-- Without a filter every packet is accepted. -/
theorem analyse_cons (hfilter : filter.enableFilter = false) (stack : Nat → StackMemory)
    (packet : Packet) (packets : List Packet) :
    analyse app filter stack table (packet :: packets) =
      (handleAccepted app (stack 0).remoteKey table packet).1 ::
        (handleAccepted app (stack 0).remoteKey table packet).2.elim [] fun table =>
          analyse app filter (fun n => stack (n + 1)) table packets := by
  have haccept : analysePacket app filter (stack 0) table packet =
      handleAccepted app (stack 0).remoteKey table packet := by
    rw [analysePacket, checkFilter, if_pos hfilter, if_pos rfl]
  simp only [analyse, haccept]

/-- The same with zeroed memory, which is zeroed for the rest too. -/
theorem analyse_zero_cons (hfilter : filter.enableFilter = false) (packet : Packet)
    (packets : List Packet) : analyse app filter Memory.zero.stack table (packet :: packets) =
      (handleAccepted app ⟨0, 0⟩ table packet).1 ::
        (handleAccepted app ⟨0, 0⟩ table packet).2.elim [] fun table =>
          analyse app filter Memory.zero.stack table packets :=
  analyse_cons hfilter Memory.zero.stack packet packets

/-- Without a filter, if no packet disconnects with zeroed memory, the decisions do not depend on
the memory. -/
theorem analyse_of_neverDisconnects (hfilter : filter.enableFilter = false) (h : Valid table)
    (hzero : NeverDisconnects app table packets) (stack : Nat → StackMemory) :
    analyse app filter stack table packets =
      analyse app filter Memory.zero.stack table packets := by
  induction packets generalizing table stack with
  | nil => rfl
  | cons packet packets ih =>
    rw [analyse_cons hfilter, analyse_zero_cons hfilter,
      handleAccepted_congr h (stack 0).remoteKey packet hzero.1]
    cases hnext : (handleAccepted app ⟨0, 0⟩ table packet).2 with
    | none => rfl
    | some table' =>
      exact congrArg _ (ih (h.handleAccepted _ packet hnext) (hzero.2 table' hnext) _)

/-- The memory of the first packet and that of the rest. -/
def stackCons (first : StackMemory) (rest : Nat → StackMemory) (n : Nat) : StackMemory :=
  if n = 0 then first else rest (n - 1)

/-- Without a filter, if a packet disconnects with zeroed memory, there is memory with which the
decisions differ. -/
theorem analyse_of_disconnects (hfilter : filter.enableFilter = false) (h : Valid table)
    (hzero : ¬ NeverDisconnects app table packets) :
    ∃ stack, analyse app filter stack table packets ≠
      analyse app filter Memory.zero.stack table packets := by
  induction packets generalizing table with
  | nil => exact absurd trivial hzero
  | cons packet packets ih =>
    by_cases hhead : packet.Disconnects table
    · -- other padding of the key, and nothing is removed
      refine ⟨fun _ => ⟨0, ⟨1, 0⟩⟩, fun heq => ?_⟩
      rw [analyse_cons hfilter, analyse_zero_cons hfilter] at heq
      exact handleAccepted_ne app h (by decide) hhead (List.cons.inj heq).1
    · -- the same memory for this packet, so that both runs go on from the same table
      simp only [NeverDisconnects, hhead, not_false_eq_true, true_and, not_forall] at hzero
      obtain ⟨table', hnext, hrest⟩ := hzero
      obtain ⟨stack, hstack⟩ := ih (h.handleAccepted _ packet hnext) hrest
      refine ⟨stackCons ⟨0, ⟨0, 0⟩⟩ stack, fun heq => hstack ?_⟩
      rw [analyse_cons hfilter, analyse_zero_cons hfilter] at heq
      have hrest := (List.cons.inj heq).2
      rw [stackCons, if_pos rfl, Option.mem_def.1 hnext] at hrest
      exact hrest

theorem handleAccepted_ne_rejected (app : Application β) (memory : KeyMemory)
    (table : SessionTable β) (packet : Packet) :
    (handleAccepted app memory table packet).1 ≠ .rejected := by
  cases packet with
  | udp ctx => simp [handleAccepted]
  | tcp packet =>
    simp only [handleAccepted]
    cases tcpPacketHandle app memory table packet.ctx packet.hdr with
    | error fault => simp [Except.toOption]
    | ok result => simp [Except.toOption]

/-- With a filter, if no packet matches, all are rejected. -/
theorem analyse_of_not_matches (hoptions : options ≠ [])
    (hpackets : ∀ packet ∈ packets, ∀ option ∈ options, ¬ option.Matches packet.ctx)
    (tuples : Nat → TupleMemory) (stack : Nat → StackMemory) :
    analyse app (filterOf options tuples) stack table packets =
      packets.map fun _ => .rejected := by
  induction packets generalizing stack with
  | nil => rfl
  | cons packet packets ih =>
    rw [List.forall_mem_cons] at hpackets
    have hreject := checkFilter_of_not_matches hoptions hpackets.1 tuples (stack 0).tuplePad
    simp only [analyse, analysePacket, hreject, Bool.false_eq_true, if_false, Option.elim_some,
      List.map_cons, ih hpackets.2]

/-- With a filter, if a packet matches, there is memory with which the decisions differ. -/
theorem analyse_of_matches (app : Application β) (table : SessionTable β)
    (hpackets : ∃ packet ∈ packets, ∃ option ∈ options, option.Matches packet.ctx) :
    ∃ stack, analyse app (filterOf options Memory.zero.tuples) stack table packets ≠
      analyse app (filterOf options Memory.zero.tuples) Memory.zero.stack table packets := by
  have hoptions : options ≠ [] := by
    obtain ⟨_, _, _, hmem, _⟩ := hpackets
    exact List.ne_nil_of_mem hmem
  induction packets with
  | nil =>
    obtain ⟨_, hmem, _⟩ := hpackets
    cases hmem
  | cons packet packets ih =>
    by_cases hhead : ∃ option ∈ options, option.Matches packet.ctx
    · -- other padding of the tuple, and the packet is rejected
      obtain ⟨option, hmem, hmatches⟩ := hhead
      refine ⟨fun _ => ⟨1, ⟨0, 0⟩⟩, fun heq => ?_⟩
      have hfirst := (List.cons.inj heq).1
      have hpad : checkFilter (filterOf options Memory.zero.tuples) 1 packet.ctx = false :=
        checkFilter_of_padding hoptions (by decide)
      have hzero : checkFilter (filterOf options Memory.zero.tuples)
          (Memory.zero.stack 0).tuplePad packet.ctx = true := checkFilter_zero hmem hmatches
      rw [analysePacket, hpad, analysePacket, hzero] at hfirst
      exact handleAccepted_ne_rejected app _ table packet hfirst.symm
    · -- the packet is rejected in both runs
      have hnone : ∀ option ∈ options, ¬ option.Matches packet.ctx := fun option hmem hmatches =>
        hhead ⟨option, hmem, hmatches⟩
      have hreject := checkFilter_of_not_matches hoptions hnone Memory.zero.tuples
      obtain ⟨found, hmem, hfound⟩ := hpackets
      rcases List.mem_cons.1 hmem with rfl | hmem
      · exact absurd hfound hhead
      · obtain ⟨stack, hstack⟩ := ih ⟨found, hmem, hfound⟩
        refine ⟨stackCons ⟨0, ⟨0, 0⟩⟩ stack, fun heq => hstack ?_⟩
        simp only [analyse, analysePacket, hreject, Bool.false_eq_true, if_false,
          Option.elim_some] at heq
        exact (List.cons.inj heq).2

/-- A packet from or to the address of an option without a port is accepted, whatever the memory
holds. -/
def PortlessAccepted (options : List FilterOption) (packets : List Packet) : Prop :=
  ∀ packet ∈ packets, ∀ option ∈ options, option.port = none →
    (option.addr = packet.ctx.srcAddr ∨ option.addr = packet.ctx.dstAddr) →
      ∀ tuples pad, checkFilter (filterOf options tuples) pad packet.ctx = true

/-- For all options and packet sequences: the decisions do not depend on unassigned memory, and
options without a port are for every port, exactly if, with options, no packet matches one of
them and, without options, no packet disconnects a session of the table before it in the run with
zeroed memory. -/
theorem independent_iff (app : Application β) (options : List FilterOption)
    (packets : List Packet) :
    (Independent app options packets ∧ PortlessAccepted options packets) ↔
      (options ≠ [] → ∀ packet ∈ packets, ∀ option ∈ options, ¬ option.Matches packet.ctx) ∧
      (options = [] → NeverDisconnects app .empty packets) := by
  constructor
  · rintro ⟨hindependent, _⟩
    constructor
    · intro _ packet hpacket option hoption hmatches
      obtain ⟨stack, hstack⟩ := analyse_of_matches app .empty
        ⟨packet, hpacket, option, hoption, hmatches⟩
      exact hstack (hindependent ⟨Memory.zero.tuples, stack⟩ .zero)
    · rintro rfl
      by_contra hzero
      have hnone : (filterOf [] Memory.zero.tuples).enableFilter = false := rfl
      obtain ⟨stack, hstack⟩ := analyse_of_disconnects hnone valid_empty hzero
      exact hstack (hindependent ⟨Memory.zero.tuples, stack⟩ .zero)
  · rintro ⟨hfilter, hsessions⟩
    constructor
    · intro memory memory'
      unfold analyser
      by_cases hoptions : options = []
      · subst hoptions
        have hnone : (filterOf [] memory.tuples).enableFilter = false := rfl
        have hzero := analyse_of_neverDisconnects hnone valid_empty (hsessions rfl)
        exact (hzero memory.stack).trans (hzero memory'.stack).symm
      · rw [analyse_of_not_matches hoptions (hfilter hoptions),
          analyse_of_not_matches hoptions (hfilter hoptions)]
    · intro packet hpacket option hoption hport haddr
      exact absurd (matches_of_portless hport haddr)
        (hfilter (List.ne_nil_of_mem hoption) packet hpacket option hoption)

end Independence

/-- The option `-f` with an address and no port, and a packet from that address. With zeroed
memory the packet is accepted. If the padding on the stack is not zero it is rejected, and so it
is if the port of the tuple holds something. -/
theorem portless_filter_depends_on_memory :
    let packet := Packet.udp ⟨1, 2, 80, 81, 0, 0⟩
    let run := fun memory => analyser (β := Unit) ⟨(), none⟩ [⟨1, none⟩] memory [packet]
    run .zero = [.udp] ∧ run ⟨fun _ => ⟨0, 0⟩, fun _ => ⟨1, ⟨0, 0⟩⟩⟩ = [.rejected] ∧
      run ⟨fun _ => ⟨7, 0⟩, fun _ => ⟨0, ⟨0, 0⟩⟩⟩ = [.rejected] := by
  decide

end HakunaMatata.Pfpa
