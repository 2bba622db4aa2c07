import NetKernel.Net.Send

/-! Closed forms of what the send path transmits, and what the receive path of
any host makes of it. -/
namespace NetKernel.RoundTrip
open Words OnesComplement Headers Buffers ArpCaches ChatQueue Hosts Receive Send

/-! The header checksum. -/

def beforeChecksum (p : Ipv4Header) : List UInt8 :=
  [p.versionIhl, p.tos] ++ store16 p.totalLength ++ store16 p.identification ++
    store16 p.flagsFragment ++ [p.ttl, p.protocol]

def afterChecksum (p : Ipv4Header) : List UInt8 := p.srcIp.bytes ++ p.dstIp.bytes

theorem bytes_split (p : Ipv4Header) :
    p.bytes = beforeChecksum p ++ (store16 p.headerChecksum ++ afterChecksum p) := rfl

def sealHeader (p : Ipv4Header) : Ipv4Header :=
  { p with headerChecksum := bswap16 (checksum p.bytes) }

theorem sealHeader_bytes (p : Ipv4Header) : (sealHeader p).bytes =
    beforeChecksum p ++ (store16 (bswap16 (checksum p.bytes)) ++ afterChecksum p) := rfl

theorem sealHeader_checksum (p : Ipv4Header) (h : p.headerChecksum = 0) :
    checksum (sealHeader p).bytes = 0 := by
  rw [sealHeader_bytes, bytes_split p, h]
  exact checksum_seal _ _ (by simp [beforeChecksum]) (by decide : 18 < 2^16)

/-! Frames as byte strings. -/

def ipv4Frame (h : Host) (dstMac : Mac) (dstIp : Ip) (protocol : UInt8) (data : List UInt8) :
    Frame :=
  (ipv4FrameHeader h dstMac).bytes ++
    ((sealHeader (ipv4SendHeader h dstIp protocol data.length)).bytes ++ data)

def udpDatagram (srcPort dstPort : UInt16) (payload : List UInt8) : List UInt8 :=
  (udpSendHeader srcPort dstPort payload.length).bytes ++ payload

/-- The frame of one datagram, from `h` to `dstMac` and `dstIp`. -/
def udpFrame (h : Host) (dstMac : Mac) (dstIp : Ip) (srcPort dstPort : UInt16)
    (payload : List UInt8) : Frame :=
  ipv4Frame h dstMac dstIp ipv4ProtoUdp (udpDatagram srcPort dstPort payload)

@[simp] theorem length_udpDatagram (srcPort dstPort : UInt16) (payload : List UInt8) :
    (udpDatagram srcPort dstPort payload).length = 8+payload.length := by
  rw [udpDatagram, List.length_append, UdpHeader.length_bytes]

@[simp] theorem length_ipv4Frame (h : Host) (dstMac : Mac) (dstIp : Ip) (protocol : UInt8)
    (data : List UInt8) : (ipv4Frame h dstMac dstIp protocol data).length = 34+data.length := by
  rw [ipv4Frame, List.length_append, List.length_append, EthernetHeader.length_bytes,
    Ipv4Header.length_bytes]
  omega

theorem buildIpv4Frame_eq (h : Host) (dstMac : Mac) (dstIp : Ip) (protocol : UInt8)
    (payload : Buffer) (n : Nat) (hp : n ≤ payload.size) (hn : n ≤ 2014) :
    buildIpv4Frame h dstMac dstIp protocol payload n =
      .ok (ipv4Frame h dstMac dstIp protocol (payload.slice 0 n)) := by
  have hd := length_slice payload 0 n (by omega)
  have hle := EthernetHeader.length_bytes (ipv4FrameHeader h dstMac)
  have hli := Ipv4Header.length_bytes (ipv4SendHeader h dstIp protocol n)
  have hread := readBytes_ok payload 0 n (by omega)
  simp only [buildIpv4Frame, ipv4Frame, hread, hd, ok_bind]
  generalize payload.slice 0 n = data at hd
  generalize (ipv4FrameHeader h dstMac).bytes = eth at hle
  generalize ipv4SendHeader h dstIp protocol n = ip at hli
  have hrest : (List.replicate (2014-n) (0 : UInt8)).length = 2014-n := List.length_replicate
  have h14 : (List.replicate 14 (0 : UInt8)).length = 14 := List.length_replicate
  have h20 : (List.replicate 20 (0 : UInt8)).length = 20 := List.length_replicate
  have hz : Buffer.zeroed .ipv4Frame virtioNetMaxFrameSize = ⟨.ipv4Frame, [] ++
      (List.replicate 14 0 ++ (List.replicate 20 0 ++
        (List.replicate n 0 ++ List.replicate (2014-n) 0)))⟩ := by
    simp only [List.replicate_append_replicate, List.nil_append, Buffer.zeroed,
      virtioNetMaxFrameSize]
    rw [show 14+(20+(n+(2014-n))) = 2048 by omega]
  generalize List.replicate (2014-n) (0 : UInt8) = rest at hz hrest
  have e1 := writeBytes_mid .ipv4Frame [] (List.replicate 14 0)
    (List.replicate 20 0 ++ (List.replicate n 0 ++ rest)) eth 0 rfl (by omega)
  have e2 := writeBytes_mid .ipv4Frame eth (List.replicate 20 0) (List.replicate n 0 ++ rest)
    ip.bytes 14 hle.symm (by omega)
  have e3 := writeBytes_mid .ipv4Frame (eth ++ ip.bytes) (List.replicate n 0) rest data (14+20)
    (by rw [List.length_append, hle, hli]) (by rw [hd, List.length_replicate])
  have e4 : checksum16 ⟨.ipv4Frame, eth ++ (ip.bytes ++ (data ++ rest))⟩ 14 20 =
      .ok (checksum ip.bytes) := by
    rw [checksum16_ok _ _ _ (by simp only [Buffer.size, List.length_append]; omega) (by omega),
      slice_mid _ _ _ _ _ _ hle.symm hli.symm]
  have e5 : writeBytes ⟨.ipv4Frame, eth ++ (ip.bytes ++ (data ++ rest))⟩ (14+10)
      (store16 (bswap16 (checksum ip.bytes))) =
      .ok ⟨.ipv4Frame, eth ++ ((sealHeader ip).bytes ++ (data ++ rest))⟩ := by
    have hs := sealHeader_bytes ip
    generalize checksum ip.bytes = c at hs
    have := writeBytes_mid .ipv4Frame (eth ++ beforeChecksum ip) (store16 ip.headerChecksum)
      (afterChecksum ip ++ (data ++ rest)) (store16 (bswap16 c)) (14+10)
      (by rw [List.length_append, hle]; rfl) rfl
    rw [hs, bytes_split ip]
    simpa only [List.append_assoc] using this
  have e6 := slice_mid .ipv4Frame [] (eth ++ ((sealHeader ip).bytes ++ data)) rest 0 (14+(20+n))
    rfl (by simp only [List.length_append, Ipv4Header.length_bytes]; omega)
  have hs : 0+(14+(20+n)) ≤ Buffer.size ⟨.ipv4Frame, eth ++ ((sealHeader ip).bytes ++
      (data ++ rest))⟩ := by
    simp only [Buffer.size, List.length_append, Ipv4Header.length_bytes]; omega
  simp only [List.append_assoc, List.nil_append] at e1 e2 e3 e6
  simp only [sizeofEthernetHeader, sizeofIpv4Header, hz, List.nil_append, e1, e2, e3, e4, e5,
    ok_bind]
  rw [readBytes_ok _ _ _ hs, e6]

theorem udpPacket_eq (srcPort dstPort : UInt16) (payload : List UInt8)
    (hp : payload.length ≤ udpPacketPayload) : ∃ headed packet : Buffer,
    writeBytes (Buffer.zeroed .datagram (sizeofUdpHeader+udpPacketPayload)) 0
      (udpSendHeader srcPort dstPort payload.length).bytes = .ok headed ∧
    writeBytes headed sizeofUdpHeader payload = .ok packet ∧
    8+payload.length ≤ packet.size ∧
    packet.slice 0 (8+payload.length) = udpDatagram srcPort dstPort payload := by
  simp only [udpPacketPayload] at hp
  have hlu := UdpHeader.length_bytes (udpSendHeader srcPort dstPort payload.length)
  rw [udpDatagram]
  generalize (udpSendHeader srcPort dstPort payload.length).bytes = hdr at hlu
  have h8 : (List.replicate 8 (0 : UInt8)).length = 8 := List.length_replicate
  have hz : Buffer.zeroed .datagram (sizeofUdpHeader+udpPacketPayload) = ⟨.datagram, [] ++
      (List.replicate 8 0 ++ (List.replicate payload.length 0 ++
        List.replicate (1472-payload.length) 0))⟩ := by
    simp only [List.replicate_append_replicate, List.nil_append, Buffer.zeroed,
      sizeofUdpHeader, udpPacketPayload]
    rw [show 8+(payload.length+(1472-payload.length)) = 8+1472 by omega]
  generalize List.replicate (1472-payload.length) (0 : UInt8) = rest at hz
  have e1 := writeBytes_mid .datagram [] (List.replicate 8 0)
    (List.replicate payload.length 0 ++ rest) hdr 0 rfl (by omega)
  have e2 := writeBytes_mid .datagram hdr (List.replicate payload.length 0) rest payload 8
    hlu.symm (by rw [List.length_replicate])
  have e3 := slice_mid .datagram [] (hdr ++ payload) rest 0 (8+payload.length) rfl
    (by rw [List.length_append, hlu])
  simp only [List.append_assoc, List.nil_append] at e3
  refine ⟨_, _, by rw [hz, e1, List.nil_append], e2, ?_, e3⟩
  simp only [Buffer.size, List.length_append]
  omega

/-- The result of `net_send_raw` and the host after the counters of an accepted frame. -/
def afterSend (h : Host) (frame : Frame) (counters : List NetStatCounter) : Bool × Host :=
  let (accepted, h) := netSendRaw h frame
  (accepted, if accepted then counters.foldl Host.count h else h)

theorem afterSend_count (h : Host) (frame : Frame) (counters : List NetStatCounter)
    (c : NetStatCounter) : ((afterSend h frame counters).1, if (afterSend h frame counters).1 then
      (afterSend h frame counters).2.count c else (afterSend h frame counters).2) =
      afterSend h frame (counters ++ [c]) := by
  unfold afterSend
  cases netSendRaw h frame with
  | mk accepted h =>
    cases accepted with
    | false => rfl
    | true => simp

theorem fits_frame (n : Nat) (hn : n ≤ 2014) : ¬ (virtioNetMaxFrameSize < n ∨
    virtioNetMaxFrameSize < sizeofEthernetHeader+(sizeofIpv4Header+n) ∨
    0xffff < sizeofIpv4Header+n) := by
  simp only [virtioNetMaxFrameSize, sizeofEthernetHeader, sizeofIpv4Header]
  omega

def arpRequestFrame (h : Host) (targetIp : Ip) : Frame :=
  (arpRequestHeader h).bytes ++ (arpRequestPacket h targetIp).bytes

section Send
variable (h : Host) (dstIp : Ip) (cache : ArpCache)

theorem netSendArpRequest_eq :
    netSendArpRequest h dstIp = .ok (afterSend h (arpRequestFrame h dstIp) [.arpTx]) := by
  rw [netSendArpRequest, buildArpFrame_eq]
  rfl

theorem netSendIpv4_miss (protocol : UInt8) (payload : Buffer) (n : Nat) (hn : n ≤ 2014)
    (hit : arpCacheLookup h.arpCache dstIp = (none, cache)) :
    netSendIpv4 h dstIp protocol payload n = .ok (false,
      (afterSend { h with arpCache := cache } (arpRequestFrame h dstIp) [.arpTx]).2) := by
  rw [netSendIpv4, if_neg (fits_frame n hn), hit]
  simp only [netSendArpRequest_eq, ok_bind]
  rfl

theorem netSendIpv4_hit (protocol : UInt8) (payload : Buffer) (n : Nat) (dstMac : Mac)
    (hp : n ≤ payload.size) (hn : n ≤ 2014)
    (hit : arpCacheLookup h.arpCache dstIp = (some dstMac, cache)) :
    netSendIpv4 h dstIp protocol payload n = .ok (afterSend { h with arpCache := cache }
      (ipv4Frame h dstMac dstIp protocol (payload.slice 0 n)) [.ipv4Tx]) := by
  rw [netSendIpv4, if_neg (fits_frame n hn), hit]
  have hf : ipv4Frame { h with arpCache := cache } dstMac dstIp protocol (payload.slice 0 n) =
      ipv4Frame h dstMac dstIp protocol (payload.slice 0 n) := rfl
  simp only [buildIpv4Frame_eq _ dstMac dstIp protocol payload n hp hn, ok_bind, hf, afterSend,
    List.foldl_cons, List.foldl_nil]

theorem udpSendTo_long (srcPort dstPort : UInt16) (payload : List UInt8)
    (hp : udpPacketPayload < payload.length) :
    udpSendTo h dstIp srcPort dstPort payload = .ok (false, h) := by
  rw [udpSendTo, if_pos hp, ite_self]

section Ports
variable (srcPort dstPort : UInt16) (payload : List UInt8) (hs : srcPort ≠ 0) (hd : dstPort ≠ 0)
  (hp : payload.length ≤ 1472)
include hs hd hp

theorem udpSendTo_eq (packet : Buffer) (headed : Buffer) (hh : writeBytes
      (Buffer.zeroed .datagram (sizeofUdpHeader+udpPacketPayload)) 0
      (udpSendHeader srcPort dstPort payload.length).bytes = .ok headed)
    (hw : writeBytes headed sizeofUdpHeader payload = .ok packet) :
    udpSendTo h dstIp srcPort dstPort payload =
      (netSendIpv4 h dstIp ipv4ProtoUdp packet (8+payload.length) >>= fun r =>
        .ok (r.1, if r.1 then r.2.count .udpTx else r.2)) := by
  have hports : ¬ (srcPort = 0 ∨ dstPort = 0 ∨ 0xffff-sizeofUdpHeader < payload.length) := by
    simp only [hs, hd, sizeofUdpHeader, false_or]; omega
  rw [udpSendTo, if_neg hports, if_neg (show ¬ 1472 < payload.length by omega)]
  simp only [hh, hw, ok_bind]

theorem udpSendTo_hit (dstMac : Mac)
    (hit : arpCacheLookup h.arpCache dstIp = (some dstMac, cache)) :
    udpSendTo h dstIp srcPort dstPort payload = .ok (afterSend { h with arpCache := cache }
      (udpFrame h dstMac dstIp srcPort dstPort payload) [.ipv4Tx, .udpTx]) := by
  obtain ⟨headed,packet,hh,hw,hsize,hslice⟩ := udpPacket_eq srcPort dstPort payload hp
  rw [udpSendTo_eq h dstIp srcPort dstPort payload hs hd hp packet headed hh hw,
    netSendIpv4_hit h dstIp cache ipv4ProtoUdp packet _ dstMac hsize (by omega) hit, hslice,
    ok_bind, afterSend_count, udpFrame, List.singleton_append]

theorem udpSendTo_miss (hit : arpCacheLookup h.arpCache dstIp = (none, cache)) :
    udpSendTo h dstIp srcPort dstPort payload = .ok (false,
      (afterSend { h with arpCache := cache } (arpRequestFrame h dstIp) [.arpTx]).2) := by
  obtain ⟨headed,packet,hh,hw,-,-⟩ := udpPacket_eq srcPort dstPort payload hp
  rw [udpSendTo_eq h dstIp srcPort dstPort payload hs hd hp packet headed hh hw,
    netSendIpv4_miss h dstIp cache ipv4ProtoUdp packet _ (by omega) hit, ok_bind]
  rfl

end Ports
end Send

/-! The receiving side. -/

def deliverUdp (h : Host) (dstMac : Mac) (srcIp dstIp : Ip) (srcPort dstPort : UInt16)
    (payload : List UInt8) : Host :=
  if macIsForMe h dstMac = false then h.count .droppedNotForMe
  else if (dstIp == h.myIp) = false then h.count .droppedNotForMe
  else match h.udpTable.lookup dstPort with
    | none => h.count .ipv4Rx
    | some handler => ((h.count .ipv4Rx).count .udpRx).invoke handler srcIp srcPort payload

section Receive
variable (s h : Host) (dstMac : Mac) (dstIp : Ip) (srcPort dstPort : UInt16)
  (payload : List UInt8) (hp : payload.length ≤ 1472)

theorem toNat_swapped_ofNat (n : Nat) (hn : n < 2^16) :
    (bswap16 (bswap16 (UInt16.ofNat n))).toNat = n := by
  rw [bswap16_bswap16, UInt16.toNat_ofNat_of_lt' (by simpa using hn)]

include hp

theorem udpHandlePacket_udpFrame (srcIp : Ip) :
    udpHandlePacket srcIp (received (udpFrame s dstMac dstIp srcPort dstPort payload)) 34
      (8+payload.length) h = .ok (match h.udpTable.lookup dstPort with
        | none => (false, h)
        | some handler => (true, (h.count .udpRx).invoke handler srcIp srcPort payload)) := by
  obtain ⟨l,hl,hb⟩ : ∃ l : List UInt8, l.length = 34 ∧
      udpFrame s dstMac dstIp srcPort dstPort payload =
        l ++ ((udpSendHeader srcPort dstPort payload.length).bytes ++ (payload ++ [])) := by
    refine ⟨(ipv4FrameHeader s dstMac).bytes ++ (sealHeader (ipv4SendHeader s dstIp ipv4ProtoUdp
      (udpDatagram srcPort dstPort payload).length)).bytes, ?_, ?_⟩
    · rw [List.length_append, EthernetHeader.length_bytes, Ipv4Header.length_bytes]
    · rw [udpFrame, ipv4Frame, List.append_assoc, List.append_nil]
      rfl
  have hsize : (received (udpFrame s dstMac dstIp srcPort dstPort payload)).size =
      34+(8+payload.length) := by
    change (udpFrame s dstMac dstIp srcPort dstPort payload).length = _
    rw [udpFrame, length_ipv4Frame, length_udpDatagram]
  have hu := udpAt_append .received l (udpSendHeader srcPort dstPort payload.length)
    (payload ++ []) 34 hl.symm
  have hpay := slice_mid .received (l ++ (udpSendHeader srcPort dstPort payload.length).bytes)
    payload [] (34+8) payload.length
    (by rw [List.length_append, hl, UdpHeader.length_bytes]) rfl
  rw [List.append_assoc] at hpay
  rw [← hb] at hu hpay
  change udpAt (received _) 34 = _ at hu
  change (received _).slice (34+8) payload.length = _ at hpay
  have hlen := toNat_swapped_ofNat (8+payload.length) (by omega)
  have hread := UdpHeader.read_ok (received (udpFrame s dstMac dstIp srcPort dstPort payload)) 34
    (by omega)
  simp only [udpHandlePacket, sizeofUdpHeader, hread, hu, ok_bind,
    udpSendHeader, hlen, bswap16_bswap16 srcPort, bswap16_bswap16 dstPort]
  rw [if_neg (by omega), if_neg (by omega)]
  cases h.udpTable.lookup dstPort with
  | none => rfl
  | some handler =>
    rw [Nat.add_sub_cancel_left, readBytes_ok _ _ _ (by omega), hpay]
    rfl

theorem netHandleFrame_udpFrame :
    netHandleFrame (received (udpFrame s dstMac dstIp srcPort dstPort payload)) h =
      .ok (deliverUdp h dstMac s.myIp dstIp srcPort dstPort payload) := by
  have hsize : (received (udpFrame s dstMac dstIp srcPort dstPort payload)).size =
      34+(8+payload.length) := by
    change (udpFrame s dstMac dstIp srcPort dstPort payload).length = _
    rw [udpFrame, length_ipv4Frame, length_udpDatagram]
  have hudp := fun g => udpHandlePacket_udpFrame s g dstMac dstIp srcPort dstPort payload hp s.myIp
  have heth := ethernetAt_append .received (ipv4FrameHeader s dstMac) ((sealHeader
    (ipv4SendHeader s dstIp ipv4ProtoUdp (udpDatagram srcPort dstPort payload).length)).bytes ++
      udpDatagram srcPort dstPort payload)
  have hip := ipv4At_append .received (ipv4FrameHeader s dstMac).bytes (sealHeader (ipv4SendHeader s
    dstIp ipv4ProtoUdp (udpDatagram srcPort dstPort payload).length))
      (udpDatagram srcPort dstPort payload) 14 (EthernetHeader.length_bytes _).symm
  have hsum := slice_mid .received (ipv4FrameHeader s dstMac).bytes (sealHeader (ipv4SendHeader s
    dstIp ipv4ProtoUdp (udpDatagram srcPort dstPort payload).length)).bytes
      (udpDatagram srcPort dstPort payload) 14 20 (EthernetHeader.length_bytes _).symm
      (Ipv4Header.length_bytes _).symm
  have hseal := sealHeader_checksum (ipv4SendHeader s dstIp ipv4ProtoUdp
    (udpDatagram srcPort dstPort payload).length) rfl
  have hlen := toNat_swapped_ofNat (20+(8+payload.length)) (by omega)
  change ethernetAt (received (udpFrame s dstMac dstIp srcPort dstPort payload)) 0 = _ at heth
  change ipv4At (received (udpFrame s dstMac dstIp srcPort dstPort payload)) 14 = _ at hip
  change Buffer.slice (received (udpFrame s dstMac dstIp srcPort dstPort payload)) 14 20 = _ at hsum
  rw [← hsum] at hseal
  generalize received (udpFrame s dstMac dstIp srcPort dstPort payload) = f at *
  have hihl : ipv4HeaderLength (ipv4At f 14) = 20 := by
    rw [hip]
    exact (by decide : (0x45 : UInt8).toNat % 16 * 4 = 20)
  have htype : bswap16 (ethernetAt f 0).etherType = ethTypeIpv4 := by
    rw [heth]; exact bswap16_bswap16 _
  have htotal : (bswap16 (ipv4At f 14).totalLength).toNat = 20+(8+payload.length) := by
    rw [hip, length_udpDatagram]; exact hlen
  have hme : ∀ g : Host, ipIsForMe g (ipv4At f 14) = (dstIp == g.myIp) := by
    intro g; rw [hip]; rfl
  have hmac : (ethernetAt f 0).dst = dstMac := by rw [heth]; rfl
  have hproto : (ipv4At f 14).protocol = ipv4ProtoUdp := by rw [hip]; rfl
  have hsrc : (ipv4At f 14).srcIp = s.myIp := by rw [hip]; rfl
  have hc := checksum16_ok f 14 20 (by omega) (by omega)
  rw [hseal] at hc
  simp only [netHandleFrame, sizeofEthernetHeader, EthernetHeader.read_ok f 0 (by omega), ok_bind,
    hmac, htype, deliverUdp]
  rw [if_neg (by omega)]
  by_cases hm : macIsForMe h dstMac = false
  · rw [if_pos hm, if_pos hm]
  rw [if_neg hm, if_neg hm, if_neg (by decide), if_pos trivial]
  simp only [handleIpv4, sizeofEthernetHeader, sizeofIpv4Header, EthernetHeader.read_ok f 0
    (by omega), Ipv4Header.read_ok f 14 (by omega), ok_bind, hihl, hc, hme]
  rw [if_neg (by omega), if_neg (by omega), if_neg (by omega), if_neg (by decide)]
  by_cases hd : (dstIp == h.myIp) = false
  · rw [if_pos hd, if_pos hd]
  rw [if_neg hd, if_neg hd]
  simp only [handleIpv4Payload, sizeofEthernetHeader, htotal, hproto, hsrc,
    Nat.add_sub_cancel_left]
  rw [if_neg (by omega), if_neg (by omega), if_pos trivial, hudp (h.count .ipv4Rx), count_udpTable]
  cases h.udpTable.lookup dstPort with
  | none => rfl
  | some handler => rfl

end Receive

theorem afterSend_accepted (h : Host) (frame : Frame) (counters : List NetStatCounter)
    (h0 : 0 < frame.length) (hm : frame.length ≤ virtioNetMaxFrameSize)
    (ha : h.accepts h.offered frame = true) : ∃ h', afterSend h frame counters = (true, h') ∧
      h'.offered = h.offered ++ [frame] ∧ h'.sent = h.sent ++ [frame] := by
  have hr : netSendRaw h frame = (true, { h with
      offered := h.offered ++ [frame], sent := h.sent ++ [frame] }.count .rawTx) := by
    rw [netSendRaw, if_neg (by omega), if_pos ha]
  obtain ⟨ho,hs⟩ := counts_sends ({ h with
    offered := h.offered ++ [frame], sent := h.sent ++ [frame] }.count .rawTx) counters
  refine ⟨_, ?_, ho, hs⟩
  rw [afterSend, hr]
  rfl

theorem invoke_calls (h : Host) (handler : UdpHandler) (srcIp : Ip) (srcPort : UInt16)
    (payload : List UInt8) : (h.invoke handler srcIp srcPort payload).calls =
      h.calls ++ [⟨handler, srcIp, srcPort, payload⟩] := by
  cases handler <;> rfl

/-- A datagram of at most 1472 bytes leaves as one frame, and that frame makes the
receiver call its handler once with the sender's address, port and bytes. A longer
one is refused in every state and nothing is sent. -/
theorem udp_round_trip (A B : Host) :
    (∀ (srcPort dstPort : UInt16) (payload : List UInt8) (handler : UdpHandler),
      srcPort ≠ 0 → dstPort ≠ 0 → payload.length ≤ 1472 →
      (arpCacheLookup A.arpCache B.myIp).1 = some B.myMac →
      A.accepts A.offered (udpFrame A B.myMac B.myIp srcPort dstPort payload) = true →
      B.udpTable.lookup dstPort = some handler →
      ∃ A' B' frame, udpSendTo A B.myIp srcPort dstPort payload = .ok (true, A') ∧
        A'.offered = A.offered ++ [frame] ∧ A'.sent = A.sent ++ [frame] ∧
        netHandleFrame (received frame) B = .ok B' ∧
        B'.calls = B.calls ++ [⟨handler, A.myIp, srcPort, payload⟩]) ∧
    ∀ (dstIp : Ip) (srcPort dstPort : UInt16) (long : List UInt8), 1472 < long.length →
      udpSendTo A dstIp srcPort dstPort long = .ok (false, A) := by
  refine ⟨fun srcPort dstPort payload handler hs hd hp hit hacc hh => ?_,
    fun dstIp srcPort dstPort long hl => udpSendTo_long A dstIp srcPort dstPort long hl⟩
  obtain ⟨cache,hc⟩ : ∃ cache, arpCacheLookup A.arpCache B.myIp = (some B.myMac, cache) :=
    ⟨_, Prod.ext hit rfl⟩
  have hlen : (udpFrame A B.myMac B.myIp srcPort dstPort payload).length =
      34+(8+payload.length) := by
    rw [udpFrame, length_ipv4Frame, length_udpDatagram]
  obtain ⟨A',he,ho,hsent⟩ := afterSend_accepted { A with arpCache := cache }
    (udpFrame A B.myMac B.myIp srcPort dstPort payload) [.ipv4Tx, .udpTx] (by omega)
    (by rw [hlen, virtioNetMaxFrameSize]; omega) hacc
  refine ⟨A', _, _, ?_, ho, hsent, netHandleFrame_udpFrame A B _ _ _ _ _ hp, ?_⟩
  · rw [udpSendTo_hit A B.myIp cache srcPort dstPort payload hs hd hp B.myMac hc, he]
  · have hm : macIsForMe B B.myMac = true := by simp [macIsForMe]
    have hi : (B.myIp == B.myIp) = true := by simp
    rw [deliverUdp, hm, hi, if_neg (by decide), if_neg (by decide), hh]
    exact invoke_calls _ _ _ _ _

def hostA : Host :=
  { Host.boot ⟨2, 0, 0, 0, 0, 1⟩ ⟨10, 0, 2, 1⟩ fun _ _ => true with
    arpCache := arpCacheInsert arpCacheReset defaultIp defaultMac }

def hostB : Host :=
  { Host.boot defaultMac defaultIp fun _ _ => true with
    udpTable := (udpRegisterHandler udpClearHandlers 4444 (some (.application 7))).2 }

theorem udp_round_trip_hello :
    (∃ A' B' frame, udpSendTo hostA hostB.myIp 5555 4444 [104, 105] = .ok (true, A') ∧
      A'.offered = hostA.offered ++ [frame] ∧ A'.sent = hostA.sent ++ [frame] ∧
      netHandleFrame (received frame) hostB = .ok B' ∧
      B'.calls = hostB.calls ++ [⟨.application 7, hostA.myIp, 5555, [104, 105]⟩]) ∧
    udpSendTo hostA defaultIp 0 0 (List.replicate 1473 0) = .ok (false, hostA) := by
  obtain ⟨hshort,hlong⟩ := udp_round_trip hostA hostB
  exact ⟨hshort 5555 4444 [104, 105] (.application 7) (by decide) (by decide) (by decide)
    (by decide) rfl (by decide), hlong defaultIp 0 0 _ (by rw [List.length_replicate]; decide)⟩

end NetKernel.RoundTrip
