import HakunaMatata.Base.Memory
import HakunaMatata.Base.Words

/-!
# The packets of the packet analyser, `pfpa_pcap_handle.c`

`packetHandle` routes a captured Ethernet frame to the TCP or the UDP handler. It computes where
the payload starts and how long it is from four fields of the frame, in unsigned 32-bit
arithmetic, and compares neither the offsets that it reads nor the payload with the number of
captured bytes. The frame is a byte list with checked reads. `packet_inside_iff` is the exact
condition on the frame under which everything stays inside the capture. The host is
little-endian.
-/

namespace HakunaMatata.Pfpa

open Base

/-- A captured frame. Its length is `caplen` of `struct pcap_pkthdr`, a `uint32_t`. -/
structure Capture where
  bytes : List UInt8
  caplen_lt : bytes.length < 2 ^ 32

namespace Capture

/-- `pcap_hdr->caplen`. -/
def caplen (frame : Capture) : UInt32 :=
  UInt32.ofNat frame.bytes.length

/-- Read a field of the frame. -/
def read (frame : Capture) (endian : Endian) (offset width : Nat) : Except Fault Nat := do
  let bytes ← bytesAt frame.bytes offset width
  return loadWord endian bytes

/-- The value of a field that lies inside the frame. -/
def field (frame : Capture) (endian : Endian) (offset width : Nat) : Nat :=
  loadWord endian ((frame.bytes.drop offset).take width)

end Capture

/-- `sizeof(struct ether_header)`. -/
def etherSize : Nat := 14

/-- `ETHERTYPE_IP`. -/
def etherTypeIp : Nat := 0x800

/-- `IPPROTO_TCP`. -/
def ipprotoTcp : Nat := 6

/-- `IPPROTO_UDP`. -/
def ipprotoUdp : Nat := 17

/-- `sizeof(struct udphdr)`. -/
def udphdrSize : Nat := 8

/-- The fields of `struct iphdr` that are used. The addresses stay in network order. -/
structure IpHdr where
  ihl : Nat
  totLen : Nat
  protocol : Nat
  saddr : UInt32
  daddr : UInt32
  deriving DecidableEq, Repr

/-- `ip_hdr_len`. -/
def IpHdr.hdrLen (ip : IpHdr) : Nat := ip.ihl * 4

/-- The offset of the TCP or UDP header in the frame. -/
def IpHdr.next (ip : IpHdr) : Nat := etherSize + ip.hdrLen

/-- Read the IP header behind the Ethernet header. -/
def readIpHdr (frame : Capture) : Except Fault IpHdr := do
  let versionIhl ← frame.read .big 14 1
  let totLen ← frame.read .big 16 2
  let saddr ← frame.read .little 26 4
  let daddr ← frame.read .little 30 4
  let protocol ← frame.read .big 23 1
  return ⟨versionIhl % 16, totLen, protocol, UInt32.ofNat saddr, UInt32.ofNat daddr⟩

/-- `pfpa_packet_context_t`. `data` is an offset in the frame. -/
structure PacketContext where
  srcAddr : UInt32
  dstAddr : UInt32
  srcPort : UInt16
  dstPort : UInt16
  data : Nat
  datalen : UInt32
  deriving DecidableEq, Repr

/-- `eth_padding`, the captured bytes behind the IP packet. -/
def ethPadding (frame : Capture) (ip : IpHdr) : UInt32 :=
  let totalLen := UInt32.ofNat (ip.totLen + etherSize)
  if totalLen < frame.caplen then frame.caplen - totalLen else 0

/-- The context of a TCP packet with this data offset. -/
def tcpContext (frame : Capture) (ip : IpHdr) (sport dport off : Nat) : PacketContext where
  srcAddr := ip.saddr
  dstAddr := ip.daddr
  srcPort := UInt16.ofNat sport
  dstPort := UInt16.ofNat dport
  data := ip.next + off * 4
  datalen := frame.caplen - ethPadding frame ip - UInt32.ofNat etherSize -
    UInt32.ofNat ip.hdrLen - UInt32.ofNat (off * 4)

/-- The context of a UDP packet with this length field. -/
def udpContext (ip : IpHdr) (sport dport len : Nat) : PacketContext where
  srcAddr := ip.saddr
  dstAddr := ip.daddr
  srcPort := UInt16.ofNat sport
  dstPort := UInt16.ofNat dport
  data := ip.next + udphdrSize
  datalen := UInt32.ofNat len - UInt32.ofNat udphdrSize

/-- Read the ports and the data offset of a TCP header and fill the context. -/
def readTcpContext (frame : Capture) (ip : IpHdr) : Except Fault PacketContext := do
  let sport ← frame.read .big ip.next 2
  let dport ← frame.read .big (ip.next + 2) 2
  let off ← frame.read .big (ip.next + 12) 1
  return tcpContext frame ip sport dport (off / 16)

/-- Read the ports and the length of a UDP header and fill the context. -/
def readUdpContext (frame : Capture) (ip : IpHdr) : Except Fault PacketContext := do
  let sport ← frame.read .big ip.next 2
  let dport ← frame.read .big (ip.next + 2) 2
  let len ← frame.read .big (ip.next + 4) 2
  return udpContext ip sport dport len

/-- The fields of `struct tcphdr` that `pfpa_tcp_packet_handle` reads. -/
structure TcpHdr where
  seq : UInt32
  ackSeq : UInt32
  thFlags : UInt8
  deriving DecidableEq, Repr

namespace TcpHdr

/-- `tcp_hdr->fin`. -/
def fin (hdr : TcpHdr) : Bool := hdr.thFlags.toNat.testBit 0

/-- `tcp_hdr->syn`. -/
def syn (hdr : TcpHdr) : Bool := hdr.thFlags.toNat.testBit 1

/-- `tcp_hdr->ack`. -/
def ack (hdr : TcpHdr) : Bool := hdr.thFlags.toNat.testBit 4

end TcpHdr

/-- Read the rest of a TCP header. -/
def readTcpHdr (frame : Capture) (ip : IpHdr) : Except Fault TcpHdr := do
  let flags ← frame.read .big (ip.next + 13) 1
  let seq ← frame.read .big (ip.next + 4) 4
  let ackSeq ← frame.read .big (ip.next + 8) 4
  return ⟨UInt32.ofNat seq, UInt32.ofNat ackSeq, UInt8.ofNat flags⟩

/-- Where a frame ends up. -/
inductive Routed where
  | ignored
  | tcp (ctx : PacketContext) (hdr : TcpHdr)
  | udp (ctx : PacketContext)
  deriving DecidableEq, Repr

section Handle

variable (checkFilter : PacketContext → Bool)

/-- The case `IPPROTO_TCP` of `pfpa_ipv4_packet_handle`, with the fields that
`pfpa_tcp_packet_handle` then reads. -/
def ipv4TcpHandle (frame : Capture) (ip : IpHdr) : Except Fault Routed := do
  let ctx ← readTcpContext frame ip
  if checkFilter ctx then
    let hdr ← readTcpHdr frame ip
    return .tcp ctx hdr
  else return .ignored

/-- The case `IPPROTO_UDP` of `pfpa_ipv4_packet_handle`. -/
def ipv4UdpHandle (frame : Capture) (ip : IpHdr) : Except Fault Routed := do
  let ctx ← readUdpContext frame ip
  if checkFilter ctx then return .udp ctx else return .ignored

/-- `pfpa_ipv4_packet_handle`, up to the call of the TCP or UDP handler. -/
def ipv4PacketHandle (frame : Capture) : Except Fault Routed := do
  let ip ← readIpHdr frame
  if ip.protocol = ipprotoTcp then ipv4TcpHandle checkFilter frame ip
  else if ip.protocol = ipprotoUdp then ipv4UdpHandle checkFilter frame ip
  else return .ignored

/-- `pfpa_packet_handle`. IPv6 and unknown types are ignored with a warning. -/
def packetHandle (frame : Capture) : Except Fault Routed := do
  let etherType ← frame.read .big 12 2
  if etherType = etherTypeIp then ipv4PacketHandle checkFilter frame else return .ignored

end Handle

/-! ## Reads of a frame -/

section Reads

variable (frame : Capture) (ip : IpHdr)

theorem Capture.read_eq_ok_iff {endian : Endian} {offset width n : Nat} :
    frame.read endian offset width = .ok n ↔
      offset + width ≤ frame.bytes.length ∧ frame.field endian offset width = n := by
  unfold Capture.read Capture.field
  rw [bind_eq_ok]
  constructor
  · rintro ⟨part, hread, hvalue⟩
    obtain ⟨hle, rfl⟩ := bytesAt_eq_ok_iff.1 hread
    cases hvalue
    exact ⟨hle, rfl⟩
  · rintro ⟨hle, rfl⟩
    exact ⟨_, bytesAt_of_le hle, rfl⟩

/-- The IP header of a frame that is long enough. -/
def Capture.ipHdr : IpHdr where
  ihl := frame.field .big 14 1 % 16
  totLen := frame.field .big 16 2
  protocol := frame.field .big 23 1
  saddr := UInt32.ofNat (frame.field .little 26 4)
  daddr := UInt32.ofNat (frame.field .little 30 4)

/-- The data offset of a TCP packet, in words. -/
def Capture.thOff : Nat := frame.field .big (ip.next + 12) 1 / 16

/-- The length field of a UDP packet. -/
def Capture.udpLen : Nat := frame.field .big (ip.next + 4) 2

/-- The context of a TCP packet that is long enough. -/
def Capture.tcpContext : PacketContext :=
  Pfpa.tcpContext frame ip (frame.field .big ip.next 2) (frame.field .big (ip.next + 2) 2)
    (frame.thOff ip)

/-- The context of a UDP packet that is long enough. -/
def Capture.udpContext : PacketContext :=
  Pfpa.udpContext ip (frame.field .big ip.next 2) (frame.field .big (ip.next + 2) 2)
    (frame.udpLen ip)

/-- The IP header is read exactly if its fixed part lies inside the frame. -/
theorem readIpHdr_eq_ok_iff {hdr : IpHdr} :
    readIpHdr frame = .ok hdr ↔ 34 ≤ frame.bytes.length ∧ hdr = frame.ipHdr := by
  simp only [readIpHdr, bind_eq_ok, Capture.read_eq_ok_iff, pure, Except.pure, Except.ok.injEq]
  constructor
  · rintro ⟨_, ⟨_, rfl⟩, _, ⟨_, rfl⟩, _, ⟨_, rfl⟩, _, ⟨hlen, rfl⟩, _, ⟨_, rfl⟩, rfl⟩
    exact ⟨hlen, rfl⟩
  · rintro ⟨hlen, rfl⟩
    exact ⟨_, ⟨by omega, rfl⟩, _, ⟨by omega, rfl⟩, _, ⟨by omega, rfl⟩, _, ⟨by omega, rfl⟩,
      _, ⟨by omega, rfl⟩, rfl⟩

/-- The context of a TCP packet is filled exactly if the data offset lies inside the frame. -/
theorem readTcpContext_eq_ok_iff {ctx : PacketContext} : readTcpContext frame ip = .ok ctx ↔
    ip.next + 13 ≤ frame.bytes.length ∧ ctx = frame.tcpContext ip := by
  simp only [readTcpContext, bind_eq_ok, Capture.read_eq_ok_iff, pure, Except.pure,
    Except.ok.injEq]
  constructor
  · rintro ⟨_, ⟨_, rfl⟩, _, ⟨_, rfl⟩, _, ⟨hlen, rfl⟩, rfl⟩
    exact ⟨hlen, rfl⟩
  · rintro ⟨hlen, rfl⟩
    exact ⟨_, ⟨by omega, rfl⟩, _, ⟨by omega, rfl⟩, _, ⟨by omega, rfl⟩, rfl⟩

/-- The context of a UDP packet is filled exactly if the length lies inside the frame. -/
theorem readUdpContext_eq_ok_iff {ctx : PacketContext} : readUdpContext frame ip = .ok ctx ↔
    ip.next + 6 ≤ frame.bytes.length ∧ ctx = frame.udpContext ip := by
  simp only [readUdpContext, bind_eq_ok, Capture.read_eq_ok_iff, pure, Except.pure,
    Except.ok.injEq]
  constructor
  · rintro ⟨_, ⟨_, rfl⟩, _, ⟨_, rfl⟩, _, ⟨hlen, rfl⟩, rfl⟩
    exact ⟨hlen, rfl⟩
  · rintro ⟨hlen, rfl⟩
    exact ⟨_, ⟨by omega, rfl⟩, _, ⟨by omega, rfl⟩, _, ⟨by omega, rfl⟩, rfl⟩

/-- The rest of a TCP header is read exactly if its flags lie inside the frame. -/
theorem readTcpHdr_ok_iff :
    (∃ hdr, readTcpHdr frame ip = .ok hdr) ↔ ip.next + 14 ≤ frame.bytes.length := by
  simp only [readTcpHdr, bind_eq_ok, Capture.read_eq_ok_iff, pure, Except.pure, Except.ok.injEq]
  constructor
  · rintro ⟨_, _, ⟨hlen, rfl⟩, _⟩
    exact hlen
  · intro hlen
    exact ⟨_, _, ⟨by omega, rfl⟩, _, ⟨by omega, rfl⟩, _, ⟨by omega, rfl⟩, rfl⟩

end Reads

/-! ## The payload -/

section Payload

variable {frame : Capture} {ip : IpHdr}

/-- The bound of a field by its width. -/
theorem Capture.field_lt (frame : Capture) (endian : Endian) (offset : Nat) {width bound : Nat}
    (h : 256 ^ width ≤ bound) : frame.field endian offset width < bound := by
  have hlt := loadWord_lt endian ((frame.bytes.drop offset).take width)
  have hwidth : ((frame.bytes.drop offset).take width).length ≤ width := List.length_take_le ..
  have hpow : 256 ^ ((frame.bytes.drop offset).take width).length ≤ 256 ^ width :=
    Nat.pow_le_pow_right (by omega) hwidth
  unfold Capture.field
  omega

/-- The captured bytes without the padding: the IP packet, as far as it was captured. -/
theorem toNat_caplen_sub_ethPadding (frame : Capture) {ip : IpHdr} (htot : ip.totLen < 2 ^ 16) :
    (frame.caplen - ethPadding frame ip).toNat =
      min frame.bytes.length (ip.totLen + etherSize) := by
  have hcap := frame.caplen_lt
  unfold ethPadding Capture.caplen etherSize
  dsimp only
  split
  · rename_i hlt
    rw [UInt32.lt_iff_toNat_lt, UInt32.toNat_ofNat', UInt32.toNat_ofNat'] at hlt
    rw [UInt32.toNat_sub, UInt32.toNat_sub, UInt32.toNat_ofNat', UInt32.toNat_ofNat']
    omega
  · rename_i hlt
    rw [UInt32.lt_iff_toNat_lt, UInt32.toNat_ofNat', UInt32.toNat_ofNat'] at hlt
    rw [UInt32.sub_zero, UInt32.toNat_ofNat']
    omega

/-- The payload of a TCP packet lies inside the frame exactly if the two headers do not pass the
end of the IP packet or of the capture. Otherwise the length has wrapped. -/
theorem tcp_payload_iff (frame : Capture) {ip : IpHdr} {sport dport off : Nat}
    (htot : ip.totLen < 2 ^ 16) :
    let ctx := tcpContext frame ip sport dport off
    ctx.data + ctx.datalen.toNat ≤ frame.bytes.length ↔
      ctx.data ≤ min frame.bytes.length (ip.totLen + etherSize) := by
  have hcap := frame.caplen_lt
  have hpacket := toNat_caplen_sub_ethPadding frame htot
  intro ctx
  have hdata : ctx.data = etherSize + ip.ihl * 4 + off * 4 := rfl
  have hlen : ctx.datalen = frame.caplen - ethPadding frame ip - UInt32.ofNat etherSize -
    UInt32.ofNat (ip.ihl * 4) - UInt32.ofNat (off * 4) := rfl
  rw [hlen, UInt32.toNat_sub, UInt32.toNat_sub, UInt32.toNat_sub, hpacket, UInt32.toNat_ofNat',
    UInt32.toNat_ofNat', UInt32.toNat_ofNat', hdata]
  unfold etherSize
  omega

/-- The payload of a UDP packet lies inside the frame exactly if its length field covers the
header and the packet of that length was captured. -/
theorem udp_payload_iff (frame : Capture) {ip : IpHdr} {sport dport len : Nat}
    (hlen : len < 2 ^ 16) :
    let ctx := udpContext ip sport dport len
    ctx.data + ctx.datalen.toNat ≤ frame.bytes.length ↔
      udphdrSize ≤ len ∧ ip.next + len ≤ frame.bytes.length := by
  have hcap := frame.caplen_lt
  intro ctx
  have hdata : ctx.data = ip.next + udphdrSize := rfl
  have hdatalen : ctx.datalen = UInt32.ofNat len - UInt32.ofNat udphdrSize := rfl
  rw [hdatalen, UInt32.toNat_sub, UInt32.toNat_ofNat', UInt32.toNat_ofNat', hdata]
  unfold udphdrSize
  omega

end Payload

/-! ## Frames that stay inside the capture -/

section Inside

variable (checkFilter : PacketContext → Bool) (frame : Capture)

/-- The payload that a handler gets lies inside the captured bytes. -/
def Routed.Inside (captured : Nat) : Routed → Prop
  | .ignored => True
  | .tcp ctx _ => ctx.data + ctx.datalen.toNat ≤ captured
  | .udp ctx => ctx.data + ctx.datalen.toNat ≤ captured

/-- A TCP packet that `pfpa_ipv4_packet_handle` and `pfpa_tcp_packet_handle` can work on: the
data offset was captured and, if the filter accepts the packet, the flags were too and the two
headers end inside the IP packet and the capture. -/
def TcpFits (ip : IpHdr) : Prop :=
  ip.next + 13 ≤ frame.bytes.length ∧ (checkFilter (frame.tcpContext ip) = true →
    ip.next + 14 ≤ frame.bytes.length ∧
      ip.next + frame.thOff ip * 4 ≤ min frame.bytes.length (ip.totLen + etherSize))

/-- A UDP packet that `pfpa_ipv4_packet_handle` can work on: the length was captured and, if the
filter accepts the packet, it covers the header and was captured too. -/
def UdpFits (ip : IpHdr) : Prop :=
  ip.next + 6 ≤ frame.bytes.length ∧ (checkFilter (frame.udpContext ip) = true →
    udphdrSize ≤ frame.udpLen ip ∧ ip.next + frame.udpLen ip ≤ frame.bytes.length)

/-- The condition on an IP packet. -/
def Ipv4Fits : Prop :=
  34 ≤ frame.bytes.length ∧
    (frame.ipHdr.protocol = ipprotoTcp → TcpFits checkFilter frame frame.ipHdr) ∧
    (frame.ipHdr.protocol = ipprotoUdp → UdpFits checkFilter frame frame.ipHdr)

/-- The condition on a frame. -/
def Fits : Prop :=
  etherSize ≤ frame.bytes.length ∧
    (frame.field .big 12 2 = etherTypeIp → Ipv4Fits checkFilter frame)

theorem totLen_lt : frame.ipHdr.totLen < 2 ^ 16 :=
  frame.field_lt .big 16 (by decide)

/-- The frame is handled without a read outside it, and so is the payload. -/
def Contained (run : Except Fault Routed) : Prop :=
  ∃ routed, run = .ok routed ∧ routed.Inside frame.bytes.length

/-- A frame that is ignored stays inside the capture. -/
theorem contained_ignored : Contained frame (pure .ignored) :=
  ⟨.ignored, rfl, trivial⟩

theorem contained_bind_iff {α : Type} {read : Except Fault α} {rest : α → Except Fault Routed} :
    Contained frame (read >>= rest) ↔ ∃ a, read = .ok a ∧ Contained frame (rest a) := by
  constructor
  · rintro ⟨routed, hrun, hinside⟩
    obtain ⟨a, hread, hrest⟩ := bind_eq_ok.1 hrun
    exact ⟨a, hread, routed, hrest, hinside⟩
  · rintro ⟨a, hread, routed, hrest, hinside⟩
    exact ⟨routed, bind_eq_ok.2 ⟨a, hread, hrest⟩, hinside⟩

theorem contained_tcp_iff : Contained frame (ipv4TcpHandle checkFilter frame frame.ipHdr) ↔
    TcpFits checkFilter frame frame.ipHdr := by
  have hpayload : (frame.tcpContext frame.ipHdr).data +
      (frame.tcpContext frame.ipHdr).datalen.toNat ≤ frame.bytes.length ↔ _ :=
    tcp_payload_iff frame (totLen_lt frame)
  simp only [ipv4TcpHandle, contained_bind_iff, readTcpContext_eq_ok_iff, TcpFits, and_assoc,
    exists_and_left, exists_eq_left]
  refine and_congr_right fun _ => ?_
  cases checkFilter (frame.tcpContext frame.ipHdr) with
  | false => simp [contained_ignored]
  | true =>
    simp only [if_true, forall_const, contained_bind_iff]
    constructor
    · rintro ⟨hdr, hread, _, hrun, hinside⟩
      cases hrun
      exact ⟨(readTcpHdr_ok_iff frame _).1 ⟨hdr, hread⟩, hpayload.1 hinside⟩
    · rintro ⟨hlen, hend⟩
      obtain ⟨hdr, hread⟩ := (readTcpHdr_ok_iff frame frame.ipHdr).2 hlen
      exact ⟨hdr, hread, _, rfl, hpayload.2 hend⟩

theorem contained_udp_iff : Contained frame (ipv4UdpHandle checkFilter frame frame.ipHdr) ↔
    UdpFits checkFilter frame frame.ipHdr := by
  have hpayload : (frame.udpContext frame.ipHdr).data +
      (frame.udpContext frame.ipHdr).datalen.toNat ≤ frame.bytes.length ↔ _ :=
    udp_payload_iff frame (frame.field_lt .big _ (by decide))
  simp only [ipv4UdpHandle, contained_bind_iff, readUdpContext_eq_ok_iff, UdpFits, and_assoc,
    exists_and_left, exists_eq_left]
  refine and_congr_right fun _ => ?_
  cases checkFilter (frame.udpContext frame.ipHdr) with
  | false => simp [contained_ignored]
  | true =>
    simp only [if_true, forall_const]
    constructor
    · rintro ⟨_, hrun, hinside⟩
      cases hrun
      exact hpayload.1 hinside
    · intro hlen
      exact ⟨_, rfl, hpayload.2 hlen⟩

theorem contained_ipv4_iff :
    Contained frame (ipv4PacketHandle checkFilter frame) ↔ Ipv4Fits checkFilter frame := by
  simp only [ipv4PacketHandle, contained_bind_iff, readIpHdr_eq_ok_iff, Ipv4Fits, and_assoc,
    exists_and_left, exists_eq_left]
  refine and_congr_right fun _ => ?_
  by_cases htcp : frame.ipHdr.protocol = ipprotoTcp
  · have hudp : ipprotoTcp ≠ ipprotoUdp := by decide
    simp [htcp, hudp, contained_tcp_iff]
  · by_cases hudp : frame.ipHdr.protocol = ipprotoUdp
    · have htcp : ipprotoUdp ≠ ipprotoTcp := by decide
      simp [hudp, htcp, contained_udp_iff]
    · simp [htcp, hudp, contained_ignored]

/-- For every frame and every filter: everything the handlers read lies inside the captured
bytes, and so does the payload that the callbacks get, exactly if the frame fits. -/
theorem packet_inside_iff :
    Contained frame (packetHandle checkFilter frame) ↔ Fits checkFilter frame := by
  simp only [packetHandle, contained_bind_iff, Capture.read_eq_ok_iff, Fits, and_assoc,
    exists_and_left, exists_eq_left']
  refine and_congr_right fun _ => ?_
  by_cases htype : frame.field .big 12 2 = etherTypeIp
  · simp [htype, contained_ipv4_iff]
  · simp [htype, contained_ignored]

end Inside

/-- A TCP packet of 54 bytes, without payload. Its data offset is 15 words, not 5. -/
def offsetPastEnd : Capture where
  bytes := List.replicate 12 0 ++ [8, 0] ++
    [0x45, 0, 0, 40, 0, 0, 0, 0, 64, 6, 0, 0, 10, 0, 0, 1, 10, 0, 0, 2] ++
    [0, 80, 0, 81, 0, 0, 0, 1, 0, 0, 0, 1, 0xf0, 0x10, 0, 0, 0, 0, 0, 0]
  caplen_lt := by decide

/-- An IP frame of which only the Ethernet header was captured. -/
def headerOnly : Capture where
  bytes := List.replicate 12 0 ++ [8, 0]
  caplen_lt := by decide

/-- A packet whose data offset passes its end is not dropped: the payload starts 40 bytes behind
the capture, and its length has wrapped. The fields of a truncated frame are read outside it. -/
theorem payload_outside_capture :
    (∃ ctx hdr, packetHandle (fun _ => true) offsetPastEnd = .ok (.tcp ctx hdr) ∧
      offsetPastEnd.bytes.length = 54 ∧ ctx.data = 94 ∧ ctx.datalen = 4294967256) ∧
    packetHandle (fun _ => true) headerOnly = .error .outOfBounds :=
  ⟨⟨_, _, rfl, rfl, rfl, rfl⟩, rfl⟩

end HakunaMatata.Pfpa
