import NetKernel.Net.Send

/-! Ethernet padding. Bytes after the ARP packet or after the IPv4 datagram never
reach the result: every length the handlers use comes from a header. -/
namespace NetKernel.Padding
open Words OnesComplement Headers Buffers ArpCaches ChatQueue Hosts Receive Send

/-- The buffer followed by `s`. -/
def pad (f : Buffer) (s : List UInt8) : Buffer := { f with bytes := f.bytes ++ s }

variable (f : Buffer) (s : List UInt8)

theorem size_pad : (pad f s).size = f.size+s.length := List.length_append

/-! Reads before the padding. -/

theorem byte_pad (i : Nat) (h : i < f.size) : (pad f s).byte i = f.byte i := by
  simp only [Buffer.byte, pad, List.getD_eq_getElem?_getD]
  rw [List.getElem?_append_left h]

theorem slice_pad (off n : Nat) (h : off+n ≤ f.size) : (pad f s).slice off n = f.slice off n := by
  have hb : off+n ≤ f.bytes.length := h
  simp only [Buffer.slice, pad]
  rw [List.drop_append_of_le_length (by omega),
    List.take_append_of_le_length (by rw [List.length_drop]; omega)]

theorem word_pad (off : Nat) (h : off+2 ≤ f.size) : word (pad f s) off = word f off := by
  simp (disch := omega) only [word, byte_pad]

theorem macAt_pad (off : Nat) (h : off+6 ≤ f.size) : macAt (pad f s) off = macAt f off := by
  simp (disch := omega) only [macAt, byte_pad]

theorem ipAt_pad (off : Nat) (h : off+4 ≤ f.size) : ipAt (pad f s) off = ipAt f off := by
  simp (disch := omega) only [ipAt, byte_pad]

theorem ethernetAt_pad (h : 14 ≤ f.size) : ethernetAt (pad f s) 0 = ethernetAt f 0 := by
  simp (disch := omega) only [ethernetAt, macAt_pad, word_pad]

theorem arpAt_pad (off : Nat) (h : off+28 ≤ f.size) : arpAt (pad f s) off = arpAt f off := by
  simp (disch := omega) only [arpAt, byte_pad, macAt_pad, ipAt_pad, word_pad]

theorem ipv4At_pad (off : Nat) (h : off+20 ≤ f.size) : ipv4At (pad f s) off = ipv4At f off := by
  simp (disch := omega) only [ipv4At, byte_pad, ipAt_pad, word_pad]

theorem icmpAt_pad (off : Nat) (h : off+8 ≤ f.size) : icmpAt (pad f s) off = icmpAt f off := by
  simp (disch := omega) only [icmpAt, byte_pad, word_pad]

theorem udpAt_pad (off : Nat) (h : off+8 ≤ f.size) : udpAt (pad f s) off = udpAt f off := by
  simp (disch := omega) only [udpAt, word_pad]

theorem readBytes_pad (off n : Nat) (h : off+n ≤ f.size) :
    readBytes (pad f s) off n = readBytes f off n := by
  have hs := size_pad f s
  rw [readBytes_ok f off n h, readBytes_ok (pad f s) off n (by omega), slice_pad f s off n h]

theorem checksum16_pad (off len : Nat) (h : off+len ≤ f.size) (hl : len < 2^16) :
    checksum16 (pad f s) off len = checksum16 f off len := by
  have hs := size_pad f s
  rw [checksum16_ok f off len h hl, checksum16_ok (pad f s) off len (by omega) hl,
    slice_pad f s off len h]

/-! The handlers, from the innermost. -/

section Handlers
variable (h : Host) (eth : EthernetHeader) (ip : Ipv4Header)

theorem handleArp_pad (hf : 42 ≤ f.size) : handleArp (pad f s) h = handleArp f h := by
  have hs := size_pad f s
  simp only [handleArp, sizeofEthernetHeader, sizeofArpPacket]
  rw [if_neg (by omega), if_neg (by omega), EthernetHeader.read_ok f 0 (by omega),
    EthernetHeader.read_ok (pad f s) 0 (by omega), ArpPacket.read_ok f 14 (by omega),
    ArpPacket.read_ok (pad f s) 14 (by omega), ethernetAt_pad f s (by omega),
    arpAt_pad f s 14 (by omega)]

theorem udpHandlePacket_pad (srcIp : Ip) (off len : Nat) (hf : off+len ≤ f.size) :
    udpHandlePacket srcIp (pad f s) off len h = udpHandlePacket srcIp f off len h := by
  have hs := size_pad f s
  simp only [udpHandlePacket, sizeofUdpHeader]
  by_cases hl : len < 8
  · rw [if_pos hl, if_pos hl]
  rw [if_neg hl, if_neg hl, UdpHeader.read_ok f off (by omega),
    UdpHeader.read_ok (pad f s) off (by omega), udpAt_pad f s off (by omega)]
  simp only [ok_bind]
  by_cases hu : (bswap16 (udpAt f off).length).toNat < 8 ∨
      len < (bswap16 (udpAt f off).length).toNat
  · rw [if_pos hu, if_pos hu]
  rw [if_neg hu, if_neg hu, readBytes_pad f s _ _ (by omega)]

theorem buildEchoReply_pad (icmp : IcmpEchoHeader) (ipHdrLen icmpLen : Nat) (hi : 8 ≤ icmpLen)
    (hf : 14+ipHdrLen+icmpLen ≤ f.size) :
    buildEchoReply h (pad f s) eth ip icmp ipHdrLen icmpLen =
      buildEchoReply h f eth ip icmp ipHdrLen icmpLen := by
  have hr := readBytes_pad f s (14+ipHdrLen+8) (icmpLen-8) (by omega)
  simp only [buildEchoReply, sizeofEthernetHeader, sizeofIcmpEchoHeader, hr]

theorem handleIcmp_pad (ipHdrLen ipTotalLen : Nat) (hf : 14+ipTotalLen ≤ f.size)
    (ht : ipTotalLen < 2^16) :
    handleIcmp (pad f s) h eth ip ipHdrLen ipTotalLen =
      handleIcmp f h eth ip ipHdrLen ipTotalLen := by
  have hs := size_pad f s
  simp only [handleIcmp, sizeofEthernetHeader, sizeofIcmpEchoHeader]
  by_cases hl : ipTotalLen < ipHdrLen+8
  · rw [if_pos hl, if_pos hl]
  rw [if_neg hl, if_neg hl, IcmpEchoHeader.read_ok f _ (by omega),
    IcmpEchoHeader.read_ok (pad f s) _ (by omega), icmpAt_pad f s _ (by omega),
    checksum16_pad f s _ _ (by omega) (by omega)]
  simp only [answerEcho, buildEchoReply_pad f s _ eth ip _ ipHdrLen (ipTotalLen-ipHdrLen)
    (by omega) (by omega)]

theorem handleIpv4Payload_pad (ipHdrLen ipTotalLen : Nat) (hf : 14+ipTotalLen ≤ f.size)
    (ht : ipTotalLen < 2^16) :
    handleIpv4Payload (pad f s) h eth ip ipHdrLen ipTotalLen =
      handleIpv4Payload f h eth ip ipHdrLen ipTotalLen := by
  have hs := size_pad f s
  simp only [handleIpv4Payload, sizeofEthernetHeader]
  by_cases hl : ipTotalLen < ipHdrLen
  · rw [if_pos hl, if_pos hl]
  have hin : ¬ f.size < 14+ipTotalLen := by omega
  have hin' : ¬ (pad f s).size < 14+ipTotalLen := by omega
  rw [if_neg hl, if_neg hl, if_neg hin, if_neg hin',
    udpHandlePacket_pad f s h ip.srcIp _ _ (by omega),
    handleIcmp_pad f s h eth ip ipHdrLen ipTotalLen hf ht]

theorem handleIpv4_pad (hh : 20 ≤ ipv4HeaderLength (ipv4At f 14))
    (hf : 14+ipv4HeaderLength (ipv4At f 14) ≤ f.size)
    (ht : 14+(bswap16 (ipv4At f 14).totalLength).toNat ≤ f.size) :
    handleIpv4 (pad f s) h = handleIpv4 f h := by
  have hs := size_pad f s
  have hle : ipv4HeaderLength (ipv4At f 14) ≤ 60 := by unfold ipv4HeaderLength; omega
  simp only [handleIpv4, sizeofEthernetHeader, sizeofIpv4Header]
  have hmin : ¬ f.size < 14+20 := by omega
  have hmin' : ¬ (pad f s).size < 14+20 := by omega
  have hin : ¬ f.size < 14+ipv4HeaderLength (ipv4At f 14) := by omega
  have hin' : ¬ (pad f s).size < 14+ipv4HeaderLength (ipv4At f 14) := by omega
  rw [if_neg hmin, if_neg hmin', EthernetHeader.read_ok f 0 (by omega),
    EthernetHeader.read_ok (pad f s) 0 (by omega), Ipv4Header.read_ok f 14 (by omega),
    Ipv4Header.read_ok (pad f s) 14 (by omega), ethernetAt_pad f s (by omega),
    ipv4At_pad f s 14 (by omega)]
  simp only [ok_bind]
  rw [if_neg (not_lt.mpr hh), if_neg (not_lt.mpr hh), if_neg hin, if_neg hin',
    checksum16_pad f s _ _ (by omega) (by omega),
    handleIpv4Payload_pad f s _ _ _ _ _ ht (UInt16.toNat_lt _)]

end Handlers

/-- A frame that says where its contents end: a whole ARP packet, or an IPv4
datagram inside the frame. -/
def Delimited (f : Buffer) : Prop :=
  bswap16 (ethernetAt f 0).etherType = ethTypeArp ∧ 42 ≤ f.size ∨
    bswap16 (ethernetAt f 0).etherType = ethTypeIpv4 ∧ 20 ≤ ipv4HeaderLength (ipv4At f 14) ∧
      14+ipv4HeaderLength (ipv4At f 14) ≤ f.size ∧
      14+(bswap16 (ipv4At f 14).totalLength).toNat ≤ f.size

instance (f : Buffer) : Decidable (Delimited f) := by
  unfold Delimited
  infer_instance

/-- Padding after a delimited frame changes nothing: the two runs send the same frames,
make the same handler calls and end in the same state, or fault at the same access. -/
theorem netHandleFrame_pad (h : Host) (hf : Delimited f) :
    netHandleFrame (pad f s) h = netHandleFrame f h := by
  have hs := size_pad f s
  have h14 : 14 ≤ f.size := by
    obtain ⟨-,ha⟩ | ⟨-,-,hi,-⟩ := hf
    · omega
    · omega
  simp only [netHandleFrame, sizeofEthernetHeader]
  rw [if_neg (by omega), if_neg (by omega), EthernetHeader.read_ok f 0 h14,
    EthernetHeader.read_ok (pad f s) 0 (by omega), ethernetAt_pad f s h14]
  simp only [ok_bind]
  obtain ⟨ht,ha⟩ | ⟨ht,hh,hi,hl⟩ := hf
  · rw [if_pos ht, if_pos ht, handleArp_pad f s h ha]
  · have hne : bswap16 (ethernetAt f 0).etherType ≠ ethTypeArp := by rw [ht]; decide
    rw [if_neg hne, if_neg hne, handleIpv4_pad f s h hh hi hl]

/-- Two received frames that differ in their padding alone. -/
theorem padding_ignored (frame padding : Frame) (h : Host) (hf : Delimited (received frame)) :
    netHandleFrame (received (frame ++ padding)) h = netHandleFrame (received frame) h :=
  netHandleFrame_pad (received frame) padding h hf

/-- An ARP request, padded to the 60 bytes of the shortest Ethernet frame. -/
def paddedRequest : Frame :=
  (arpRequestHeader (Host.boot defaultMac defaultIp fun _ _ => true)).bytes ++
    (arpRequestPacket (Host.boot defaultMac defaultIp fun _ _ => true) ⟨10, 0, 2, 1⟩).bytes

theorem padding_ignored_request :
    netHandleFrame (received (paddedRequest ++ List.replicate 18 0))
        (Host.boot ⟨2, 0, 0, 0, 0, 1⟩ ⟨10, 0, 2, 1⟩ fun _ _ => true) =
      netHandleFrame (received paddedRequest)
        (Host.boot ⟨2, 0, 0, 0, 0, 1⟩ ⟨10, 0, 2, 1⟩ fun _ _ => true) :=
  padding_ignored paddedRequest (List.replicate 18 0) _ (by decide)

end NetKernel.Padding
