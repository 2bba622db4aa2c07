import NetKernel.Net.Host

/-! The receive path: one raw Ethernet frame is classified and handled. A frame
is the buffer of its received bytes, so `f.size` is `len`. Console output is not
part of the state. -/
namespace NetKernel.Receive
open Words OnesComplement Headers Buffers ArpCaches ChatQueue Hosts

def macIsBroadcast (m : Mac) : Bool := m == Mac.broadcast

def macIsForMe (h : Host) (m : Mac) : Bool := macIsBroadcast m || m == h.myMac

/-- `(version_ihl & 0x0F) * 4`. -/
def ipv4HeaderLength (ip : Ipv4Header) : Nat := (ip.versionIhl.toNat % 16) * 4

def ipIsForMe (h : Host) (ip : Ipv4Header) : Bool := ip.dstIp == h.myIp

def copyIpHeaderBasic (h : Host) (src : Ipv4Header) : Ipv4Header :=
  { src with tos := 0, ttl := 64, headerChecksum := 0, srcIp := h.myIp, dstIp := src.srcIp }

def copyEthHeaderReply (h : Host) (src : EthernetHeader) : EthernetHeader :=
  ⟨src.src, h.myMac, src.etherType⟩

def copyIcmpEchoReply (src : IcmpEchoHeader) : IcmpEchoHeader :=
  ⟨icmpEchoReply, 0, 0, src.identifier, src.sequence⟩

/-- The 42-byte reply buffer, filled and read back in full by `net_send_raw`. -/
def buildArpFrame (r : Region) (eth : EthernetHeader) (arp : ArpPacket) : Except Fault Frame := do
  let b := Buffer.zeroed r (sizeofEthernetHeader+sizeofArpPacket)
  let b ← writeBytes b 0 eth.bytes
  let b ← writeBytes b sizeofEthernetHeader arp.bytes
  readBytes b 0 (sizeofEthernetHeader+sizeofArpPacket)

def arpReplyHeader (h : Host) (eth : EthernetHeader) : EthernetHeader :=
  ⟨eth.src, h.myMac, bswap16 ethTypeArp⟩

def arpReplyPacket (h : Host) (arp : ArpPacket) : ArpPacket :=
  ⟨bswap16 arpHtypeEthernet, bswap16 arpPtypeIpv4, 6, 4, bswap16 arpOpReply,
    h.myMac, h.myIp, arp.sha, arp.spa⟩

/-- The fields that let a sender's binding into the cache, whatever the operation. -/
def arpLearns (arp : ArpPacket) : Bool :=
  arp.hlen == 6 && arp.plen == 4 && bswap16 arp.htype == arpHtypeEthernet &&
    bswap16 arp.ptype == arpPtypeIpv4

def handleArp (f : Buffer) (h : Host) : Except Fault Host := do
  if f.size < sizeofEthernetHeader+sizeofArpPacket then .ok (h.count .droppedShort) else
  let eth ← EthernetHeader.read f 0
  let arp ← ArpPacket.read f sizeofEthernetHeader
  let op := bswap16 arp.oper
  let h := if arpLearns arp then
    { h with arpCache := arpCacheInsert h.arpCache arp.spa arp.sha } else h
  if op = arpOpReply then .ok (h.count .arpRx) else
  if op ≠ arpOpRequest then .ok h else
  if arp.tpa ≠ h.myIp then .ok (h.count .droppedNotForMe) else
  let h := h.count .arpRx
  let reply ← buildArpFrame .arpReply (arpReplyHeader h eth) (arpReplyPacket h arp)
  let (accepted, h) := netSendRaw h reply
  .ok (if accepted then h.count .arpTx else h)

/-- `udp_handle_packet(src_ip, f + off, len)`. -/
def udpHandlePacket (srcIp : Ip) (f : Buffer) (off len : Nat) (h : Host) :
    Except Fault (Bool × Host) := do
  if len < sizeofUdpHeader then .ok (false, h.count .droppedShort) else
  let udp ← UdpHeader.read f off
  let srcPort := bswap16 udp.srcPort
  let dstPort := bswap16 udp.dstPort
  let udpLen := (bswap16 udp.length).toNat
  if udpLen < sizeofUdpHeader ∨ len < udpLen then .ok (false, h.count .droppedShort) else
  match h.udpTable.lookup dstPort with
  | none => .ok (false, h)
  | some handler => do
    let payload ← readBytes f (off+sizeofUdpHeader) (udpLen-sizeofUdpHeader)
    .ok (true, (h.count .udpRx).invoke handler srcIp srcPort payload)

abbrev icmpReplyBufferSize : Nat := 1514

/-- Fills `reply[1514]` layer by layer and reads it back as `net_send_raw` does. -/
def buildEchoReply (h : Host) (f : Buffer) (eth : EthernetHeader) (ip : Ipv4Header)
    (icmp : IcmpEchoHeader) (ipHdrLen icmpLen : Nat) : Except Fault Frame := do
  let icmpOff := sizeofEthernetHeader+ipHdrLen
  let payloadLen := icmpLen-sizeofIcmpEchoHeader
  let replyLen := sizeofEthernetHeader+ipHdrLen+icmpLen
  let reply := Buffer.zeroed .icmpReply icmpReplyBufferSize
  let reply ← writeBytes reply 0 (copyEthHeaderReply h eth).bytes
  let reply ← writeBytes reply sizeofEthernetHeader (copyIpHeaderBasic h ip).bytes
  let reply ← writeBytes reply icmpOff (copyIcmpEchoReply icmp).bytes
  -- copy_payload
  let payload ← readBytes f (icmpOff+sizeofIcmpEchoHeader) payloadLen
  let reply ← writeBytes reply (icmpOff+sizeofIcmpEchoHeader) payload
  let reply ← writeBytes reply (sizeofEthernetHeader+10) (store16 0)
  let sum ← checksum16 reply sizeofEthernetHeader ipHdrLen
  let reply ← writeBytes reply (sizeofEthernetHeader+10) (store16 (bswap16 sum))
  let reply ← writeBytes reply (icmpOff+2) (store16 0)
  let sum ← checksum16 reply icmpOff icmpLen
  let reply ← writeBytes reply (icmpOff+2) (store16 (bswap16 sum))
  readBytes reply 0 replyLen

/-- The end of `handle_ipv4`: the reply to a valid echo request. -/
def answerEcho (f : Buffer) (h : Host) (eth : EthernetHeader) (ip : Ipv4Header)
    (icmp : IcmpEchoHeader) (ipHdrLen icmpLen : Nat) : Except Fault Host := do
  let reply ← buildEchoReply h f eth ip icmp ipHdrLen icmpLen
  let (accepted, h) := netSendRaw h reply
  .ok (if accepted then (h.count .ipv4Tx).count .icmpTx else h)

/-- The ICMP part of `handle_ipv4`. -/
def handleIcmp (f : Buffer) (h : Host) (eth : EthernetHeader) (ip : Ipv4Header)
    (ipHdrLen ipTotalLen : Nat) : Except Fault Host := do
  if ipTotalLen < ipHdrLen+sizeofIcmpEchoHeader then .ok (h.count .droppedShort) else
  let icmp ← IcmpEchoHeader.read f (sizeofEthernetHeader+ipHdrLen)
  if icmp.type ≠ icmpEchoRequest then .ok h else
  let sum ← checksum16 f (sizeofEthernetHeader+ipHdrLen) (ipTotalLen-ipHdrLen)
  if sum ≠ 0 then .ok (h.count .droppedBadChecksum) else
  answerEcho f (h.count .icmpRx) eth ip icmp ipHdrLen (ipTotalLen-ipHdrLen)

/-- The part of `handle_ipv4` after the header is accepted. -/
def handleIpv4Payload (f : Buffer) (h : Host) (eth : EthernetHeader) (ip : Ipv4Header)
    (ipHdrLen ipTotalLen : Nat) : Except Fault Host := do
  if ipTotalLen < ipHdrLen then .ok (h.count .droppedShort) else
  if f.size < sizeofEthernetHeader+ipTotalLen then .ok (h.count .droppedShort) else
  if ip.protocol = ipv4ProtoUdp then do
    let (_, h) ← udpHandlePacket ip.srcIp f (sizeofEthernetHeader+ipHdrLen) (ipTotalLen-ipHdrLen) h
    .ok h
  else
  if ip.protocol ≠ ipv4ProtoIcmp then .ok (h.count .droppedUnknownIpv4Protocol) else
  handleIcmp f h eth ip ipHdrLen ipTotalLen

def handleIpv4 (f : Buffer) (h : Host) : Except Fault Host := do
  if f.size < sizeofEthernetHeader+sizeofIpv4Header then .ok (h.count .droppedShort) else
  let eth ← EthernetHeader.read f 0
  let ip ← Ipv4Header.read f sizeofEthernetHeader
  let ipHdrLen := ipv4HeaderLength ip
  if ipHdrLen < sizeofIpv4Header then .ok (h.count .droppedShort) else
  if f.size < sizeofEthernetHeader+ipHdrLen then .ok (h.count .droppedShort) else
  let sum ← checksum16 f sizeofEthernetHeader ipHdrLen
  if sum ≠ 0 then .ok (h.count .droppedBadChecksum) else
  if ipIsForMe h ip = false then .ok (h.count .droppedNotForMe) else
  handleIpv4Payload f (h.count .ipv4Rx) eth ip ipHdrLen (bswap16 ip.totalLength).toNat

def netHandleFrame (f : Buffer) (h : Host) : Except Fault Host := do
  if f.size < sizeofEthernetHeader then .ok (h.count .droppedShort) else
  let eth ← EthernetHeader.read f 0
  if macIsForMe h eth.dst = false then .ok (h.count .droppedNotForMe) else
  let etherType := bswap16 eth.etherType
  if etherType = ethTypeArp then handleArp f h else
  if etherType = ethTypeIpv4 then handleIpv4 f h else
  .ok (h.count .droppedUnknownEthertype)

def received (frame : Frame) : Buffer := ⟨.received, frame⟩

/-- `net_poll_once` with what the raw backend has: no frame, or one of 1 to 2048 bytes. -/
def netPollOnce (frame : Option Frame) (h : Host) : Except Fault (Bool × Host) :=
  match frame with
  | none => .ok (false, h)
  | some frame => do
    let h ← netHandleFrame (received frame) (h.count .rawRx)
    .ok (true, h)

theorem buildArpFrame_eq (r : Region) (eth : EthernetHeader) (arp : ArpPacket) :
    buildArpFrame r eth arp = .ok (eth.bytes ++ arp.bytes) := by
  have hz : Buffer.zeroed r (14+28) = ⟨r, List.replicate 14 0 ++ List.replicate 28 0⟩ := by
    rw [List.replicate_append_replicate]; rfl
  have he : writeBytes ⟨r, [] ++ (List.replicate 14 0 ++ List.replicate 28 0)⟩ 0 eth.bytes =
      .ok ⟨r, [] ++ (eth.bytes ++ List.replicate 28 0)⟩ :=
    writeBytes_mid r [] (List.replicate 14 0) _ eth.bytes 0 rfl (by simp)
  have ha : writeBytes ⟨r, eth.bytes ++ (List.replicate 28 0 ++ [])⟩ 14 arp.bytes =
      .ok ⟨r, eth.bytes ++ (arp.bytes ++ [])⟩ :=
    writeBytes_mid r eth.bytes (List.replicate 28 0) [] arp.bytes 14 (by simp) (by simp)
  have hr := slice_mid r [] (eth.bytes ++ arp.bytes) [] 0 (14+28) rfl (by simp)
  simp only [List.append_nil, List.nil_append] at he ha hr
  simp only [buildArpFrame, sizeofEthernetHeader, sizeofArpPacket, hz, he, ok_bind, ha]
  rw [readBytes_ok _ _ _ (by simp [Buffer.size]), hr]

end NetKernel.Receive
