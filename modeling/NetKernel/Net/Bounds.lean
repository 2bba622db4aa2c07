import NetKernel.Net.Receive

/-! Bounds of the receive path. Every header, checksum and payload read lies in
the frame; the one buffer that can be overrun is the 1514-byte ICMP reply. -/
namespace NetKernel.Bounds
open Words OnesComplement Headers Buffers ArpCaches ChatQueue Hosts Receive

theorem handleArp_inBounds (f : Buffer) (h : Host) : InBounds (handleArp f h) := by
  refine inBounds_ite.mpr ⟨fun _ => inBounds_ok _, fun hs => ?_⟩
  simp only [sizeofEthernetHeader, sizeofArpPacket] at hs
  simp only [EthernetHeader.read_ok f 0 (by omega), sizeofEthernetHeader,
    ArpPacket.read_ok f 14 (by omega), ok_bind, buildArpFrame_eq]
  refine inBounds_ite.mpr ⟨fun _ => inBounds_ok _, fun _ => ?_⟩
  refine inBounds_ite.mpr ⟨fun _ => inBounds_ok _, fun _ => ?_⟩
  exact inBounds_ite.mpr ⟨fun _ => inBounds_ok _, fun _ => inBounds_ok _⟩

theorem udpHandlePacket_inBounds (srcIp : Ip) (f : Buffer) (off len : Nat) (h : Host)
    (hb : off+len ≤ f.size) : InBounds (udpHandlePacket srcIp f off len h) := by
  refine inBounds_ite.mpr ⟨fun _ => inBounds_ok _, fun hl => ?_⟩
  simp only [sizeofUdpHeader] at hl
  simp only [UdpHeader.read_ok f off (by omega), ok_bind, sizeofUdpHeader]
  refine inBounds_ite.mpr ⟨fun _ => inBounds_ok _, fun hu => ?_⟩
  cases h.udpTable.lookup (bswap16 (udpAt f off).dstPort) with
  | none => exact inBounds_ok _
  | some handler =>
    simp only [readBytes_ok f _ _ (show off+8+((bswap16 (udpAt f off).length).toNat-8) ≤ f.size by
      omega), ok_bind]
    exact inBounds_ok _

section EchoReply
variable (h : Host) (f : Buffer) (eth : EthernetHeader) (ip : Ipv4Header) (icmp : IcmpEchoHeader)
  (ipHdrLen icmpLen : Nat)

theorem buildEchoReply_inBounds (hh : 20 ≤ ipHdrLen) (hi : 8 ≤ icmpLen)
    (hf : 14+ipHdrLen+icmpLen ≤ f.size) (hr : 14+ipHdrLen+icmpLen ≤ icmpReplyBufferSize) :
    InBounds (buildEchoReply h f eth ip icmp ipHdrLen icmpLen) := by
  have hz : (Buffer.zeroed .icmpReply icmpReplyBufferSize).size = 1514 := List.length_replicate
  have hp := length_slice f (14+ipHdrLen+8) (icmpLen-8) (by omega)
  simp only [icmpReplyBufferSize] at hr
  obtain ⟨b1,e1,s1⟩ := writeBytes_size _ 0 (copyEthHeaderReply h eth).bytes
    (by rw [hz, EthernetHeader.length_bytes]; omega)
  obtain ⟨b2,e2,s2⟩ := writeBytes_size b1 14 (copyIpHeaderBasic h ip).bytes
    (by rw [s1, hz, Ipv4Header.length_bytes]; omega)
  obtain ⟨b3,e3,s3⟩ := writeBytes_size b2 (14+ipHdrLen) (copyIcmpEchoReply icmp).bytes
    (by rw [s2, s1, hz, IcmpEchoHeader.length_bytes]; omega)
  obtain ⟨b4,e4,s4⟩ := writeBytes_size b3 (14+ipHdrLen+8) (f.slice (14+ipHdrLen+8) (icmpLen-8))
    (by rw [s3, s2, s1, hz, hp]; omega)
  obtain ⟨b5,e5,s5⟩ := writeBytes_size b4 (14+10) (store16 0)
    (by rw [s4, s3, s2, s1, hz, length_store16]; omega)
  have hs5 : b5.size = 1514 := by rw [s5, s4, s3, s2, s1, hz]
  have k5 := checksum16_ok b5 14 ipHdrLen (by omega) (by omega)
  obtain ⟨b6,e6,s6⟩ := writeBytes_size b5 (14+10)
    (store16 (bswap16 (checksum (b5.slice 14 ipHdrLen)))) (by rw [hs5, length_store16]; omega)
  obtain ⟨b7,e7,s7⟩ := writeBytes_size b6 (14+ipHdrLen+2) (store16 0)
    (by rw [s6, hs5, length_store16]; omega)
  have hs7 : b7.size = 1514 := by rw [s7, s6, hs5]
  have k7 := checksum16_ok b7 (14+ipHdrLen) icmpLen (by omega) (by omega)
  obtain ⟨b8,e8,s8⟩ := writeBytes_size b7 (14+ipHdrLen+2)
    (store16 (bswap16 (checksum (b7.slice (14+ipHdrLen) icmpLen))))
    (by rw [hs7, length_store16]; omega)
  have k8 := readBytes_ok b8 0 (14+ipHdrLen+icmpLen) (by omega)
  have kf := readBytes_ok f (14+ipHdrLen+8) (icmpLen-8) (by omega)
  refine ⟨b8.slice 0 (14+ipHdrLen+icmpLen), ?_⟩
  simp only [buildEchoReply, sizeofEthernetHeader, sizeofIcmpEchoHeader, e1, e2, e3, kf, e4, e5,
    k5, e6, e7, k7, e8, k8, ok_bind]

theorem buildEchoReply_not_inBounds (h60 : ipHdrLen ≤ 60) (hi : 8 ≤ icmpLen)
    (hf : 14+ipHdrLen+icmpLen ≤ f.size) (hr : icmpReplyBufferSize < 14+ipHdrLen+icmpLen) :
    ¬ InBounds (buildEchoReply h f eth ip icmp ipHdrLen icmpLen) := by
  have hz : (Buffer.zeroed .icmpReply icmpReplyBufferSize).size = 1514 := List.length_replicate
  have hp := length_slice f (14+ipHdrLen+8) (icmpLen-8) (by omega)
  simp only [icmpReplyBufferSize] at hr
  obtain ⟨b1,e1,s1⟩ := writeBytes_size _ 0 (copyEthHeaderReply h eth).bytes
    (by rw [hz, EthernetHeader.length_bytes]; omega)
  obtain ⟨b2,e2,s2⟩ := writeBytes_size b1 14 (copyIpHeaderBasic h ip).bytes
    (by rw [s1, hz, Ipv4Header.length_bytes]; omega)
  obtain ⟨b3,e3,s3⟩ := writeBytes_size b2 (14+ipHdrLen) (copyIcmpEchoReply icmp).bytes
    (by rw [s2, s1, hz, IcmpEchoHeader.length_bytes]; omega)
  have hs3 : b3.size = 1514 := by rw [s3, s2, s1, hz]
  have kf := readBytes_ok f (14+ipHdrLen+8) (icmpLen-8) (by omega)
  obtain ⟨e,he⟩ := writeBytes_fault b3 (14+ipHdrLen+8) (f.slice (14+ipHdrLen+8) (icmpLen-8))
    (by rw [hs3, hp]; omega) (by intro hn; rw [hn] at hp; simp at hp; omega)
  simp only [buildEchoReply, sizeofEthernetHeader, sizeofIcmpEchoHeader, e1, e2, e3, kf, he,
    ok_bind, error_bind]
  exact not_inBounds_error e

end EchoReply

/-- The frames `handle_ipv4` answers: echo requests for this host, valid up to
the checksum of the message. -/
structure EchoRequest (h : Host) (f : Buffer) : Prop where
  size : 34 ≤ f.size
  forMe : macIsForMe h (ethernetAt f 0).dst = true
  etherType : bswap16 (ethernetAt f 0).etherType = ethTypeIpv4
  headerLength : 20 ≤ ipv4HeaderLength (ipv4At f 14)
  headerInFrame : 14+ipv4HeaderLength (ipv4At f 14) ≤ f.size
  headerChecksum : checksum (f.slice 14 (ipv4HeaderLength (ipv4At f 14))) = 0
  dstIp : ipIsForMe h (ipv4At f 14) = true
  totalLength : ipv4HeaderLength (ipv4At f 14)+8 ≤ (bswap16 (ipv4At f 14).totalLength).toNat
  inFrame : 14+(bswap16 (ipv4At f 14).totalLength).toNat ≤ f.size
  protocol : (ipv4At f 14).protocol = ipv4ProtoIcmp
  type : (icmpAt f (14+ipv4HeaderLength (ipv4At f 14))).type = icmpEchoRequest
  icmpChecksum : checksum (f.slice (14+ipv4HeaderLength (ipv4At f 14))
    ((bswap16 (ipv4At f 14).totalLength).toNat-ipv4HeaderLength (ipv4At f 14))) = 0

/-- An echo request whose reply does not fit `reply[1514]`. -/
def OversizedEchoRequest (h : Host) (f : Buffer) : Prop :=
  EchoRequest h f ∧ icmpReplyBufferSize < 14+(bswap16 (ipv4At f 14).totalLength).toNat

theorem ipv4HeaderLength_le (ip : Ipv4Header) : ipv4HeaderLength ip ≤ 60 := by
  unfold ipv4HeaderLength
  omega

/-- An accepted request is answered in bounds exactly when the reply fits. -/
theorem answerEcho_inBounds_iff (f : Buffer) (h : Host) (eth : EthernetHeader) (ip : Ipv4Header)
    (icmp : IcmpEchoHeader) (ipHdrLen icmpLen : Nat) (hh : 20 ≤ ipHdrLen) (h60 : ipHdrLen ≤ 60)
    (hi : 8 ≤ icmpLen) (hf : 14+ipHdrLen+icmpLen ≤ f.size) :
    InBounds (answerEcho f h eth ip icmp ipHdrLen icmpLen) ↔
      14+ipHdrLen+icmpLen ≤ icmpReplyBufferSize := by
  rw [answerEcho, inBounds_bind]
  constructor
  · rintro ⟨reply,hr,-⟩
    by_contra hgt
    exact buildEchoReply_not_inBounds h f eth ip icmp ipHdrLen icmpLen h60 hi hf (by omega)
      ⟨reply, hr⟩
  · intro hfit
    obtain ⟨reply,hr⟩ := buildEchoReply_inBounds h f eth ip icmp ipHdrLen icmpLen hh hi hf hfit
    exact ⟨reply, hr, inBounds_ok _⟩

theorem handleIcmp_inBounds_iff (f : Buffer) (h : Host) (eth : EthernetHeader) (ip : Ipv4Header)
    (ipHdrLen ipTotalLen : Nat) (hh : 20 ≤ ipHdrLen) (h60 : ipHdrLen ≤ 60)
    (hf : 14+ipTotalLen ≤ f.size) (ht : ipTotalLen < 2^16) :
    InBounds (handleIcmp f h eth ip ipHdrLen ipTotalLen) ↔
      (ipHdrLen+8 ≤ ipTotalLen → (icmpAt f (14+ipHdrLen)).type = icmpEchoRequest →
        checksum (f.slice (14+ipHdrLen) (ipTotalLen-ipHdrLen)) = 0 →
        14+ipTotalLen ≤ icmpReplyBufferSize) := by
  rw [handleIcmp, inBounds_ite]
  simp only [sizeofEthernetHeader, sizeofIcmpEchoHeader]
  by_cases h8 : ipTotalLen < ipHdrLen+8
  · exact ⟨fun _ _ => by omega, fun _ => ⟨fun _ => inBounds_ok _, fun hn => absurd h8 hn⟩⟩
  · simp only [IcmpEchoHeader.read_ok f (14+ipHdrLen) (by omega),
      checksum16_ok f (14+ipHdrLen) (ipTotalLen-ipHdrLen) (by omega) (by omega), ok_bind,
      inBounds_ite, inBounds_ok, answerEcho_inBounds_iff f (h.count .icmpRx) eth ip
        (icmpAt f (14+ipHdrLen)) ipHdrLen (ipTotalLen-ipHdrLen) hh h60 (by omega) (by omega)]
    rw [show 14+ipHdrLen+(ipTotalLen-ipHdrLen) = 14+ipTotalLen by omega]
    simp only [h8, not_false_eq_true, true_imp_iff, true_and, implies_true, not_not,
      show ipHdrLen+8 ≤ ipTotalLen by omega]

theorem handleIpv4Payload_inBounds_iff (f : Buffer) (h : Host) (eth : EthernetHeader)
    (ip : Ipv4Header) (ipHdrLen ipTotalLen : Nat) (hh : 20 ≤ ipHdrLen) (h60 : ipHdrLen ≤ 60)
    (ht : ipTotalLen < 2^16) :
    InBounds (handleIpv4Payload f h eth ip ipHdrLen ipTotalLen) ↔
      (14+ipTotalLen ≤ f.size → ip.protocol = ipv4ProtoIcmp → ipHdrLen+8 ≤ ipTotalLen →
        (icmpAt f (14+ipHdrLen)).type = icmpEchoRequest →
        checksum (f.slice (14+ipHdrLen) (ipTotalLen-ipHdrLen)) = 0 →
        14+ipTotalLen ≤ icmpReplyBufferSize) := by
  rw [handleIpv4Payload, inBounds_ite, inBounds_ite]
  simp only [sizeofEthernetHeader]
  by_cases hlt : ipTotalLen < ipHdrLen
  · exact ⟨fun _ _ _ => by omega, fun _ => ⟨fun _ => inBounds_ok _, fun hn => absurd hlt hn⟩⟩
  by_cases hin : f.size < 14+ipTotalLen
  · exact ⟨fun _ _ => by omega, fun _ => ⟨fun hn => absurd hn hlt,
      fun _ => ⟨fun _ => inBounds_ok _, fun hn => absurd hin hn⟩⟩⟩
  simp only [hlt, hin, false_imp_iff, not_false_eq_true, true_imp_iff, true_and,
    show 14+ipTotalLen ≤ f.size by omega]
  rw [inBounds_ite]
  by_cases hu : ip.protocol = ipv4ProtoUdp
  · have hne : ip.protocol ≠ ipv4ProtoIcmp := by rw [hu]; decide
    obtain ⟨r,hr⟩ := udpHandlePacket_inBounds ip.srcIp f (14+ipHdrLen) (ipTotalLen-ipHdrLen) h
      (by omega)
    rw [hr]
    exact ⟨fun _ hp => absurd hp hne, fun _ => ⟨fun _ => inBounds_ok _, fun hn => absurd hu hn⟩⟩
  · simp only [hu, false_imp_iff, not_false_eq_true, true_imp_iff, true_and, inBounds_ite,
      inBounds_ok, implies_true, not_not,
      handleIcmp_inBounds_iff f h eth ip ipHdrLen ipTotalLen hh h60 (by omega) ht]

theorem handleIpv4_inBounds_iff (f : Buffer) (h : Host)
    (hme : macIsForMe h (ethernetAt f 0).dst = true)
    (ht : bswap16 (ethernetAt f 0).etherType = ethTypeIpv4) :
    InBounds (handleIpv4 f h) ↔ ¬ OversizedEchoRequest h f := by
  have h60 := ipv4HeaderLength_le (ipv4At f 14)
  have htot : (bswap16 (ipv4At f 14).totalLength).toNat < 2^16 := UInt16.toNat_lt _
  simp only [handleIpv4, sizeofEthernetHeader, sizeofIpv4Header]
  by_cases hs : f.size < 14+20
  · rw [if_pos hs]
    exact ⟨fun _ ho => absurd ho.1.size (by omega), fun _ => inBounds_ok _⟩
  simp only [EthernetHeader.read_ok f 0 (by omega), Ipv4Header.read_ok f 14 (by omega), ok_bind]
  rw [if_neg hs]
  by_cases hh : ipv4HeaderLength (ipv4At f 14) < 20
  · rw [if_pos hh]
    exact ⟨fun _ ho => absurd ho.1.headerLength (by omega), fun _ => inBounds_ok _⟩
  rw [if_neg hh]
  by_cases hf : f.size < 14+ipv4HeaderLength (ipv4At f 14)
  · rw [if_pos hf]
    exact ⟨fun _ ho => absurd ho.1.headerInFrame (by omega), fun _ => inBounds_ok _⟩
  rw [if_neg hf, checksum16_ok f 14 (ipv4HeaderLength (ipv4At f 14)) (by omega) (by omega), ok_bind]
  by_cases hc : checksum (f.slice 14 (ipv4HeaderLength (ipv4At f 14))) = 0
  swap
  · rw [if_pos hc]
    exact ⟨fun _ ho => hc ho.1.headerChecksum, fun _ => inBounds_ok _⟩
  rw [if_neg (not_not.mpr hc)]
  by_cases hd : ipIsForMe h (ipv4At f 14) = false
  · rw [if_pos hd]
    exact ⟨fun _ ho => by simp [ho.1.dstIp] at hd, fun _ => inBounds_ok _⟩
  rw [if_neg hd, handleIpv4Payload_inBounds_iff f _ _ _ _ _ (by omega) h60 htot]
  constructor
  · rintro hfit ⟨he,hbig⟩
    have := hfit he.inFrame he.protocol he.totalLength he.type he.icmpChecksum
    omega
  · intro hn hin hp h8 hty hic
    by_contra hgt
    exact hn ⟨⟨by omega, hme, ht, by omega, by omega, hc, by simpa using hd, h8, hin, hp, hty,
      hic⟩, by omega⟩

/-- A frame is handled without an access outside a buffer exactly when it is not
an oversized echo request. -/
theorem netHandleFrame_inBounds (f : Buffer) (h : Host) :
    InBounds (netHandleFrame f h) ↔ ¬ OversizedEchoRequest h f := by
  simp only [netHandleFrame, sizeofEthernetHeader]
  by_cases hs : f.size < 14
  · rw [if_pos hs]
    exact ⟨fun _ ho => absurd ho.1.size (by omega), fun _ => inBounds_ok _⟩
  rw [if_neg hs, EthernetHeader.read_ok f 0 (by omega), ok_bind]
  by_cases hm : macIsForMe h (ethernetAt f 0).dst = false
  · rw [if_pos hm]
    exact ⟨fun _ ho => by simp [ho.1.forMe] at hm, fun _ => inBounds_ok _⟩
  rw [if_neg hm]
  by_cases ha : bswap16 (ethernetAt f 0).etherType = ethTypeArp
  · rw [if_pos ha]
    refine ⟨fun _ ho => ?_, fun _ => handleArp_inBounds f h⟩
    rw [ho.1.etherType] at ha
    exact absurd ha (by decide)
  rw [if_neg ha]
  by_cases ht : bswap16 (ethernetAt f 0).etherType = ethTypeIpv4
  · rw [if_pos ht]
    exact handleIpv4_inBounds_iff f h (by simpa using hm) ht
  · rw [if_neg ht]
    exact ⟨fun _ ho => ht ho.1.etherType, fun _ => inBounds_ok _⟩

/-- For every host state and every received frame, all accesses to the frame and
to the reply buffers are in bounds unless the frame is an oversized echo request. -/
theorem receive_inBounds_iff (frame : Frame) (h : Host) :
    InBounds (netHandleFrame (received frame) h) ↔ ¬ OversizedEchoRequest h (received frame) :=
  netHandleFrame_inBounds (received frame) h

/-- A 1515-byte echo request for the default identity: 1473 payload bytes. -/
def bigPing : Frame :=
  EthernetHeader.bytes ⟨defaultMac, ⟨2, 0, 0, 0, 0, 1⟩, bswap16 ethTypeIpv4⟩ ++
    (Ipv4Header.bytes ⟨0x45, 0, bswap16 1501, 0, 0, 64, ipv4ProtoIcmp, bswap16 0x5D10,
      ⟨10, 0, 2, 2⟩, defaultIp⟩ ++
    (IcmpEchoHeader.bytes ⟨icmpEchoRequest, 0, bswap16 0xF7FF, 0, 0⟩ ++ List.replicate 1473 0))

theorem bigPing_length : bigPing.length = 1515 := by
  simp only [bigPing, List.length_append, EthernetHeader.length_bytes, Ipv4Header.length_bytes,
    IcmpEchoHeader.length_bytes, List.length_replicate]

theorem bigPing_message : (received bigPing).slice 34 1481 =
    IcmpEchoHeader.bytes ⟨icmpEchoRequest, 0, bswap16 0xF7FF, 0, 0⟩ ++ List.replicate 1473 0 := by
  have hm : (IcmpEchoHeader.bytes ⟨icmpEchoRequest, 0, bswap16 0xF7FF, 0, 0⟩ ++
      List.replicate 1473 0).length = 1481 := by
    simp only [List.length_append, IcmpEchoHeader.length_bytes, List.length_replicate]
  have hd : (EthernetHeader.bytes ⟨defaultMac, ⟨2, 0, 0, 0, 0, 1⟩, bswap16 ethTypeIpv4⟩ ++
      Ipv4Header.bytes ⟨0x45, 0, bswap16 1501, 0, 0, 64, ipv4ProtoIcmp, bswap16 0x5D10,
        ⟨10, 0, 2, 2⟩, defaultIp⟩).length = 34 := by
    simp only [List.length_append, EthernetHeader.length_bytes, Ipv4Header.length_bytes]
  simp only [Buffer.slice, received, bigPing]
  rw [← List.append_assoc, List.drop_left' hd, List.take_of_length_le (le_of_eq hm)]

/-- One byte above the reply buffer is enough, well below the 2048 accepted. -/
theorem receive_overrun : ¬ ∀ (frame : Frame) (h : Host), frame.length ≤ virtioNetMaxFrameSize →
    InBounds (netHandleFrame (received frame) h) := by
  intro hall
  refine (netHandleFrame_inBounds _ _).mp
    (hall bigPing (Host.boot defaultMac defaultIp fun _ _ => true) (by rw [bigPing_length]; decide))
    ⟨⟨?_, by decide, by decide, by decide, ?_, by decide, by decide, by decide, ?_, by decide,
      by decide, ?_⟩, by decide⟩
  · change 34 ≤ bigPing.length
    rw [bigPing_length]; decide
  · change 34 ≤ bigPing.length
    rw [bigPing_length]; decide
  · change 1515 ≤ bigPing.length
    rw [bigPing_length]
  · change checksum ((received bigPing).slice 34 1481) = 0
    rw [bigPing_message, checksum, wordSum_append _ _ (by simp), wordSum_replicate_zero]
    decide

end NetKernel.Bounds
