import NetKernel.Net.Receive

/-! The send path: ARP requests, IPv4 frames, UDP datagrams and chat messages.
Each layer fills its own local buffer and hands it down. -/
namespace NetKernel.Send
open Words OnesComplement Headers Buffers ArpCaches ChatQueue Hosts Receive

def arpRequestHeader (h : Host) : EthernetHeader :=
  ⟨Mac.broadcast, h.myMac, bswap16 ethTypeArp⟩

def arpRequestPacket (h : Host) (targetIp : Ip) : ArpPacket :=
  ⟨bswap16 arpHtypeEthernet, bswap16 arpPtypeIpv4, 6, 4, bswap16 arpOpRequest,
    h.myMac, h.myIp, Mac.zero, targetIp⟩

def netSendArpRequest (h : Host) (targetIp : Ip) : Except Fault (Bool × Host) := do
  let request ← buildArpFrame .arpRequest (arpRequestHeader h) (arpRequestPacket h targetIp)
  let (accepted, h) := netSendRaw h request
  .ok (accepted, if accepted then h.count .arpTx else h)

def ipv4FrameHeader (h : Host) (dstMac : Mac) : EthernetHeader :=
  ⟨dstMac, h.myMac, bswap16 ethTypeIpv4⟩

def ipv4SendHeader (h : Host) (dstIp : Ip) (protocol : UInt8) (payloadLen : Nat) : Ipv4Header :=
  ⟨0x45, 0, bswap16 (UInt16.ofNat (sizeofIpv4Header+payloadLen)), bswap16 0x2222, 0, 64, protocol,
    0, h.myIp, dstIp⟩

/-- Fills `frame[VIRTIO_NET_MAX_FRAME_SIZE]` and reads it back as `net_send_raw` does. -/
def buildIpv4Frame (h : Host) (dstMac : Mac) (dstIp : Ip) (protocol : UInt8) (payload : Buffer)
    (payloadLen : Nat) : Except Fault Frame := do
  let frame := Buffer.zeroed .ipv4Frame virtioNetMaxFrameSize
  let frame ← writeBytes frame 0 (ipv4FrameHeader h dstMac).bytes
  let frame ← writeBytes frame sizeofEthernetHeader
    (ipv4SendHeader h dstIp protocol payloadLen).bytes
  let data ← readBytes payload 0 payloadLen
  let frame ← writeBytes frame (sizeofEthernetHeader+sizeofIpv4Header) data
  let sum ← checksum16 frame sizeofEthernetHeader sizeofIpv4Header
  let frame ← writeBytes frame (sizeofEthernetHeader+10) (store16 (bswap16 sum))
  readBytes frame 0 (sizeofEthernetHeader+(sizeofIpv4Header+payloadLen))

/-- `net_send_ipv4(dst_ip, protocol, payload, payload_len)`. A miss in the ARP cache
sends a request for `dst_ip` instead, and the packet is dropped. -/
def netSendIpv4 (h : Host) (dstIp : Ip) (protocol : UInt8) (payload : Buffer)
    (payloadLen : Nat) : Except Fault (Bool × Host) := do
  let ipTotalLen := sizeofIpv4Header+payloadLen
  let frameLen := sizeofEthernetHeader+ipTotalLen
  if virtioNetMaxFrameSize < payloadLen ∨ virtioNetMaxFrameSize < frameLen ∨
    0xffff < ipTotalLen then .ok (false, h) else
  match arpCacheLookup h.arpCache dstIp with
  | (none, cache) => do
    let (_, h) ← netSendArpRequest { h with arpCache := cache } dstIp
    .ok (false, h)
  | (some dstMac, cache) => do
    let h := { h with arpCache := cache }
    let frame ← buildIpv4Frame h dstMac dstIp protocol payload payloadLen
    let (accepted, h) := netSendRaw h frame
    .ok (accepted, if accepted then h.count .ipv4Tx else h)

/-- Room for a payload in `packet[sizeof(UdpHeader) + 1472]`. -/
abbrev udpPacketPayload : Nat := 1472

def udpSendHeader (srcPort dstPort : UInt16) (payloadLen : Nat) : UdpHeader :=
  ⟨bswap16 srcPort, bswap16 dstPort, bswap16 (UInt16.ofNat (sizeofUdpHeader+payloadLen)), 0⟩

def udpSendTo (h : Host) (dstIp : Ip) (srcPort dstPort : UInt16) (payload : List UInt8) :
    Except Fault (Bool × Host) := do
  if srcPort = 0 ∨ dstPort = 0 ∨ 0xffff-sizeofUdpHeader < payload.length then .ok (false, h) else
  if udpPacketPayload < payload.length then .ok (false, h) else
  let packet := Buffer.zeroed .datagram (sizeofUdpHeader+udpPacketPayload)
  let packet ← writeBytes packet 0 (udpSendHeader srcPort dstPort payload.length).bytes
  let packet ← writeBytes packet sizeofUdpHeader payload
  let (sent, h) ← netSendIpv4 h dstIp ipv4ProtoUdp packet (sizeofUdpHeader+payload.length)
  .ok (sent, if sent then h.count .udpTx else h)

def netChatInit (h : Host) : Bool × Host :=
  let (ok, table) := udpRegisterHandler h.udpTable netChatPort (some .chatUdpHandler)
  (ok, { h with udpTable := table })

/-- `net_chat_send(dst_ip, text)`; `text` runs to its terminating NUL. -/
def netChatSend (h : Host) (dstIp : Ip) (text : List UInt8) : Except Fault (Bool × Host) :=
  let (ok, h) := netChatInit h
  if ok = false then .ok (false, h) else
  let (sanitized, len) := sanitizeCstr (List.replicate netChatTextSize 0) text
  if len = 0 then .ok (false, h) else
  udpSendTo h dstIp netChatPort netChatPort (sanitized.take len)

/-- `net_chat_poll` with the frame the raw backend has, if any. -/
def netChatPoll (frame : Option Frame) (h : Host) : Except Fault (Bool × Host) :=
  let (ok, h) := netChatInit h
  if ok = false then .ok (false, h) else netPollOnce frame h

end NetKernel.Send
