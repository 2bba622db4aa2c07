import NetKernel.Net.Bounds
import NetKernel.Net.RoundTrip

/-! What handling one frame can transmit: nothing, an ARP reply or an echo reply. -/
namespace NetKernel.Replies
open Words OnesComplement Headers Buffers ArpCaches ChatQueue Hosts Receive RoundTrip Bounds

/-- The call touches counters, the chat state and the call log alone. -/
structure Silent (h h' : Host) : Prop where
  myMac : h'.myMac = h.myMac
  myIp : h'.myIp = h.myIp
  arpCache : h'.arpCache = h.arpCache
  udpTable : h'.udpTable = h.udpTable
  accepts : h'.accepts = h.accepts
  offered : h'.offered = h.offered
  sent : h'.sent = h.sent

theorem Silent.refl (h : Host) : Silent h h := ⟨rfl, rfl, rfl, rfl, rfl, rfl, rfl⟩

theorem Silent.trans {a b c : Host} (h : Silent a b) (k : Silent b c) : Silent a c :=
  ⟨k.myMac.trans h.myMac, k.myIp.trans h.myIp, k.arpCache.trans h.arpCache,
    k.udpTable.trans h.udpTable, k.accepts.trans h.accepts, k.offered.trans h.offered,
    k.sent.trans h.sent⟩

theorem Silent.count (h : Host) (c : NetStatCounter) : Silent h (h.count c) :=
  ⟨rfl, rfl, rfl, rfl, rfl, rfl, rfl⟩

theorem Silent.counts (h : Host) (cs : List NetStatCounter) :
    Silent h (cs.foldl Host.count h) := by
  induction cs generalizing h with
  | nil => exact .refl h
  | cons c cs ih => exact (Silent.count h c).trans (ih (h.count c))

theorem Silent.invoke (h : Host) (handler : UdpHandler) (srcIp : Ip) (srcPort : UInt16)
    (payload : List UInt8) : Silent h (h.invoke handler srcIp srcPort payload) := by
  cases handler <;> exact ⟨rfl, rfl, rfl, rfl, rfl, rfl, rfl⟩

/-- The call offers one frame to the backend, which may take it. -/
structure Offers (h h' : Host) (frame : Frame) : Prop where
  myMac : h'.myMac = h.myMac
  myIp : h'.myIp = h.myIp
  arpCache : h'.arpCache = h.arpCache
  udpTable : h'.udpTable = h.udpTable
  accepts : h'.accepts = h.accepts
  offered : h'.offered = h.offered ++ [frame]
  sent : h'.sent = h.sent ∨ h'.sent = h.sent ++ [frame]

theorem offers_netSendRaw (h : Host) (frame : Frame) :
    Offers h (netSendRaw h frame).2 frame := by
  unfold netSendRaw
  split
  · exact ⟨rfl, rfl, rfl, rfl, rfl, rfl, Or.inl rfl⟩
  · split
    · exact ⟨rfl, rfl, rfl, rfl, rfl, rfl, Or.inr rfl⟩
    · exact ⟨rfl, rfl, rfl, rfl, rfl, rfl, Or.inl rfl⟩

theorem Offers.silent {a b c : Host} {frame : Frame} (h : Offers a b frame) (k : Silent b c) :
    Offers a c frame :=
  ⟨k.myMac.trans h.myMac, k.myIp.trans h.myIp, k.arpCache.trans h.arpCache,
    k.udpTable.trans h.udpTable, k.accepts.trans h.accepts, k.offered.trans h.offered,
    k.sent ▸ h.sent⟩

theorem Silent.offers {a b c : Host} {frame : Frame} (h : Silent a b) (k : Offers b c frame) :
    Offers a c frame :=
  ⟨k.myMac.trans h.myMac, k.myIp.trans h.myIp, k.arpCache.trans h.arpCache,
    k.udpTable.trans h.udpTable, k.accepts.trans h.accepts, h.offered ▸ k.offered, h.sent ▸ k.sent⟩

theorem offers_afterSend (h : Host) (frame : Frame) (cs : List NetStatCounter) :
    Offers h (afterSend h frame cs).2 frame := by
  have hr := offers_netSendRaw h frame
  simp only [afterSend]
  split
  · exact hr.silent (.counts _ cs)
  · exact hr

theorem afterSend_sent (h : Host) (frame : Frame) (cs : List NetStatCounter) :
    (afterSend h frame cs).2.sent =
      if (afterSend h frame cs).1 then h.sent ++ [frame] else h.sent := by
  refine Eq.trans ?_ (netSendRaw_sent h frame)
  simp only [afterSend]
  split
  · exact (Silent.counts _ cs).sent
  · rfl

/-! ARP. -/

/-- The cache after `handle_arp`. -/
def learn (h : Host) (arp : ArpPacket) : Host :=
  if arpLearns arp then { h with arpCache := arpCacheInsert h.arpCache arp.spa arp.sha } else h

def arpReplyFrame (h : Host) (eth : EthernetHeader) (arp : ArpPacket) : Frame :=
  (arpReplyHeader h eth).bytes ++ (arpReplyPacket h arp).bytes

/-- What `handle_arp` makes of a packet. -/
def arpOutcome (h : Host) (eth : EthernetHeader) (arp : ArpPacket) : Host :=
  if bswap16 arp.oper = arpOpReply then (learn h arp).count .arpRx else
  if bswap16 arp.oper ≠ arpOpRequest then learn h arp else
  if arp.tpa ≠ h.myIp then (learn h arp).count .droppedNotForMe else
  (afterSend ((learn h arp).count .arpRx) (arpReplyFrame h eth arp) [.arpTx]).2

theorem learn_fields (h : Host) (arp : ArpPacket) : (learn h arp).myMac = h.myMac ∧
    (learn h arp).myIp = h.myIp ∧ (learn h arp).udpTable = h.udpTable ∧
    (learn h arp).accepts = h.accepts ∧ (learn h arp).offered = h.offered ∧
    (learn h arp).sent = h.sent := by
  unfold learn
  split <;> exact ⟨rfl, rfl, rfl, rfl, rfl, rfl⟩

theorem handleArp_eq (f : Buffer) (h : Host) (hf : 42 ≤ f.size) :
    handleArp f h = .ok (arpOutcome h (ethernetAt f 0) (arpAt f 14)) := by
  simp only [handleArp, sizeofEthernetHeader, sizeofArpPacket]
  rw [if_neg (by omega), EthernetHeader.read_ok f 0 (by omega), ArpPacket.read_ok f 14 (by omega)]
  simp only [ok_bind, buildArpFrame_eq]
  generalize ethernetAt f 0 = eth
  generalize arpAt f 14 = arp
  obtain ⟨hmac,hip,-,-,-,-⟩ := learn_fields h arp
  have hframe : (arpReplyHeader ((learn h arp).count .arpRx) eth).bytes ++
      (arpReplyPacket ((learn h arp).count .arpRx) arp).bytes = arpReplyFrame h eth arp := by
    simp only [arpReplyFrame, arpReplyHeader, arpReplyPacket, count_myMac, count_myIp, hmac, hip]
  change (if bswap16 arp.oper = arpOpReply then
      (.ok ((learn h arp).count .arpRx) : Except Fault Host) else
    if bswap16 arp.oper ≠ arpOpRequest then .ok (learn h arp) else
    if arp.tpa ≠ (learn h arp).myIp then .ok ((learn h arp).count .droppedNotForMe) else
    .ok (afterSend ((learn h arp).count .arpRx)
      ((arpReplyHeader ((learn h arp).count .arpRx) eth).bytes ++
        (arpReplyPacket ((learn h arp).count .arpRx) arp).bytes) [.arpTx]).2) = _
  rw [hframe, hip, arpOutcome]
  split
  · rfl
  split
  · rfl
  split <;> rfl

theorem arpAt_append (r : Region) (e : EthernetHeader) (a : ArpPacket) :
    arpAt ⟨r, e.bytes ++ a.bytes⟩ 14 = a := by
  have h : arpAt ⟨r, e.bytes ++ a.bytes⟩ 14 =
      ⟨load16 (lowByte a.htype) (highByte a.htype), load16 (lowByte a.ptype) (highByte a.ptype),
        a.hlen, a.plen, load16 (lowByte a.oper) (highByte a.oper), a.sha, a.spa, a.tha, a.tpa⟩ :=
    rfl
  rw [h, load16_low_high, load16_low_high, load16_low_high]

theorem netHandleFrame_arpFrame (h : Host) (e : EthernetHeader) (a : ArpPacket)
    (ht : bswap16 e.etherType = ethTypeArp) (hm : macIsForMe h e.dst = true) :
    netHandleFrame (received (e.bytes ++ a.bytes)) h = .ok (arpOutcome h e a) := by
  have he : ethernetAt (received (e.bytes ++ a.bytes)) 0 = e := ethernetAt_append _ e _
  have ha : arpAt (received (e.bytes ++ a.bytes)) 14 = a := arpAt_append _ e a
  have hs : (received (e.bytes ++ a.bytes)).size = 42 := by
    change (e.bytes ++ a.bytes).length = 42
    rw [List.length_append, EthernetHeader.length_bytes, ArpPacket.length_bytes]
  simp only [netHandleFrame, sizeofEthernetHeader]
  rw [if_neg (by omega), EthernetHeader.read_ok _ 0 (by omega), he, ok_bind, hm, if_neg (by decide),
    if_pos ht, handleArp_eq _ h (by omega), he, ha]

/-! Echo replies. -/

theorem byte_splice (b : Buffer) (off : Nat) (xs : List UInt8) (i : Nat)
    (h : off+xs.length ≤ b.size) : (b.splice off xs).byte i =
      if i < off then b.byte i else if i < off+xs.length then xs.getD (i-off) 0 else b.byte i := by
  have hl : (b.bytes.take off).length = off := by
    rw [List.length_take]
    simp only [Buffer.size] at h
    omega
  simp only [Buffer.byte, Buffer.splice, List.getD_eq_getElem?_getD, List.append_assoc]
  by_cases h1 : i < off
  · rw [if_pos h1, List.getElem?_append_left (by omega), List.getElem?_take_of_lt h1]
  rw [if_neg h1, List.getElem?_append_right (by omega), hl]
  by_cases h2 : i < off+xs.length
  · rw [if_pos h2, List.getElem?_append_left (by omega)]
  · rw [if_neg h2, List.getElem?_append_right (by omega), List.getElem?_drop]
    congr 2
    omega

theorem writeBytes_spec (b : Buffer) (off n : Nat) (xs : List UInt8) (hn : xs.length = n)
    (h : off+n ≤ b.size) : ∃ b', writeBytes b off xs = .ok b' ∧ b'.size = b.size ∧
      ∀ i, b'.byte i =
        if i < off then b.byte i else if i < off+n then xs.getD (i-off) 0 else b.byte i := by
  subst hn
  exact ⟨_, writeBytes_ok b off xs h, size_splice b off xs h, fun i => byte_splice b off xs i h⟩

theorem byte_slice (b : Buffer) (n i : Nat) (hi : i < n) :
    Buffer.byte ⟨.received, b.slice 0 n⟩ i = b.byte i := by
  simp only [Buffer.byte, Buffer.slice, List.drop_zero, List.getD_eq_getElem?_getD]
  rw [List.getElem?_take_of_lt hi]

theorem buildEchoReply_bytes (h : Host) (f : Buffer) (eth : EthernetHeader) (ip : Ipv4Header)
    (icmp : IcmpEchoHeader) (ipHdrLen icmpLen : Nat) (hh : 20 ≤ ipHdrLen) (hi : 8 ≤ icmpLen)
    (hf : 14+ipHdrLen+icmpLen ≤ f.size) (hr : 14+ipHdrLen+icmpLen ≤ icmpReplyBufferSize) :
    ∃ b : Buffer, buildEchoReply h f eth ip icmp ipHdrLen icmpLen =
        .ok (b.slice 0 (14+ipHdrLen+icmpLen)) ∧ 14+ipHdrLen+icmpLen ≤ b.size ∧
      (∀ i < 14, b.byte i = (copyEthHeaderReply h eth).bytes.getD i 0) ∧
      (∀ i < 20, i < 10 ∨ 12 ≤ i → b.byte (14+i) = (copyIpHeaderBasic h ip).bytes.getD i 0) ∧
      b.byte (14+ipHdrLen) = icmpEchoReply := by
  have hz : (Buffer.zeroed .icmpReply icmpReplyBufferSize).size = 1514 := List.length_replicate
  have hp := length_slice f (14+ipHdrLen+8) (icmpLen-8) (by omega)
  simp only [icmpReplyBufferSize] at hr
  obtain ⟨b1,e1,s1,k1⟩ := writeBytes_spec (Buffer.zeroed .icmpReply icmpReplyBufferSize) 0 14
    (copyEthHeaderReply h eth).bytes (EthernetHeader.length_bytes _) (by omega)
  obtain ⟨b2,e2,s2,k2⟩ := writeBytes_spec b1 14 20 (copyIpHeaderBasic h ip).bytes
    (Ipv4Header.length_bytes _) (by omega)
  obtain ⟨b3,e3,s3,k3⟩ := writeBytes_spec b2 (14+ipHdrLen) 8 (copyIcmpEchoReply icmp).bytes
    (IcmpEchoHeader.length_bytes _) (by omega)
  obtain ⟨b4,e4,s4,k4⟩ := writeBytes_spec b3 (14+ipHdrLen+8) _
    (f.slice (14+ipHdrLen+8) (icmpLen-8)) hp (by omega)
  obtain ⟨b5,e5,s5,k5⟩ := writeBytes_spec b4 (14+10) 2 (store16 0) rfl (by omega)
  have c5 := checksum16_ok b5 14 ipHdrLen (by omega) (by omega)
  obtain ⟨b6,e6,s6,k6⟩ := writeBytes_spec b5 (14+10) 2
    (store16 (bswap16 (checksum (b5.slice 14 ipHdrLen)))) rfl (by omega)
  obtain ⟨b7,e7,s7,k7⟩ := writeBytes_spec b6 (14+ipHdrLen+2) 2 (store16 0) rfl (by omega)
  have c7 := checksum16_ok b7 (14+ipHdrLen) icmpLen (by omega) (by omega)
  obtain ⟨b8,e8,s8,k8⟩ := writeBytes_spec b7 (14+ipHdrLen+2) 2
    (store16 (bswap16 (checksum (b7.slice (14+ipHdrLen) icmpLen)))) rfl (by omega)
  have c8 := readBytes_ok b8 0 (14+ipHdrLen+icmpLen) (by omega)
  have cf := readBytes_ok f (14+ipHdrLen+8) (icmpLen-8) (by omega)
  refine ⟨b8, ?_, by omega, fun i hi14 => ?_, fun i hi20 hi10 => ?_, ?_⟩
  · simp only [buildEchoReply, sizeofEthernetHeader, sizeofIcmpEchoHeader, e1, e2, e3, cf, e4, e5,
      c5, e6, e7, c7, e8, c8, ok_bind]
  · simp (disch := omega) only [k8, k7, k6, k5, k4, k3, k2, k1, if_pos, Nat.sub_zero,
      Nat.not_lt_zero, if_false]
  · simp (disch := omega) only [k8, k7, k6, k5, k4, k3, k2, if_pos, if_neg, ite_self,
      Nat.add_sub_cancel_left]
  · simp (disch := omega) only [k8, k7, k6, k5, k4, k3, if_pos, if_neg]
    rw [Nat.sub_self]
    rfl

/-- A frame whose Ethernet and IPv4 headers, checksum apart, are those of the reply to a
datagram with these headers, and whose ICMP message is an echo reply. -/
structure IsEchoReply (h : Host) (eth : EthernetHeader) (ip : Ipv4Header) (reply : Frame) :
    Prop where
  ethernet : ethernetAt (received reply) 0 = copyEthHeaderReply h eth
  ipv4 : ∃ c, ipv4At (received reply) 14 = { copyIpHeaderBasic h ip with headerChecksum := c }
  type : (icmpAt (received reply) (14+ipv4HeaderLength ip)).type = icmpEchoReply

theorem isEchoReply_slice (h : Host) (eth : EthernetHeader) (ip : Ipv4Header) (b : Buffer) (n : Nat)
    (hn : 14+ipv4HeaderLength ip+8 ≤ n) (hh : 20 ≤ ipv4HeaderLength ip)
    (heth : ∀ i < 14, b.byte i = (copyEthHeaderReply h eth).bytes.getD i 0)
    (hip : ∀ i < 20, i < 10 ∨ 12 ≤ i → b.byte (14+i) = (copyIpHeaderBasic h ip).bytes.getD i 0)
    (htype : b.byte (14+ipv4HeaderLength ip) = icmpEchoReply) :
    IsEchoReply h eth ip (b.slice 0 n) := by
  have hb (i : Nat) (hi : i < n) : (received (b.slice 0 n)).byte i = b.byte i := byte_slice b n i hi
  have he (i : Nat) (hi : i < 14) : (received (b.slice 0 n)).byte i =
      (copyEthHeaderReply h eth).bytes.getD i 0 := by
    rw [hb i (by omega), heth i hi]
  have hq (i : Nat) (h14 : 14 ≤ i) (hi : i < 34) (h10 : i < 24 ∨ 26 ≤ i) :
      (received (b.slice 0 n)).byte i = (copyIpHeaderBasic h ip).bytes.getD (i-14) 0 := by
    have hi14 := hip (i-14) (by omega) (by omega)
    rw [show 14+(i-14) = i by omega] at hi14
    rw [hb i (by omega), hi14]
  refine ⟨?_, ⟨word (received (b.slice 0 n)) (14+10), ?_⟩, ?_⟩
  · calc ethernetAt (received (b.slice 0 n)) 0
        = ethernetAt ⟨.received, (copyEthHeaderReply h eth).bytes ++ []⟩ 0 := by
          simp (disch := omega) only [ethernetAt, macAt, word, Nat.zero_add, he]
          rfl
      _ = copyEthHeaderReply h eth := ethernetAt_append _ _ _
  · generalize copyIpHeaderBasic h ip = q at *
    calc ipv4At (received (b.slice 0 n)) 14
        = ⟨q.versionIhl, q.tos, load16 (lowByte q.totalLength) (highByte q.totalLength),
            load16 (lowByte q.identification) (highByte q.identification),
            load16 (lowByte q.flagsFragment) (highByte q.flagsFragment), q.ttl, q.protocol,
            word (received (b.slice 0 n)) (14+10), q.srcIp, q.dstIp⟩ := by
          generalize hw : word (received (b.slice 0 n)) (14+10) = w
          simp only [ipv4At, hw]
          simp (disch := omega) only [ipAt, word, Nat.reduceAdd, hq]
          rfl
      _ = _ := by simp only [load16_low_high]
  · exact (hb _ (by omega)).trans htype

/-! The handlers, from the innermost. -/

theorem udpHandlePacket_silent {srcIp : Ip} {f : Buffer} {off len : Nat} {h : Host}
    {r : Bool × Host} (he : udpHandlePacket srcIp f off len h = .ok r) : Silent h r.2 := by
  unfold udpHandlePacket at he
  split at he
  · cases he
    exact .count h _
  obtain ⟨udp,-,he⟩ := bind_eq_ok he
  simp only at he
  split at he
  · cases he
    exact .count h _
  split at he
  · cases he
    exact .refl h
  · obtain ⟨payload,-,he⟩ := bind_eq_ok he
    cases he
    exact (Silent.count h .udpRx).trans (.invoke _ _ _ _ _)

/-- The outcomes of `net_handle_frame`. -/
inductive Handled (f : Buffer) (h h' : Host) : Prop
  | silent : Silent h h' → Handled f h h'
  | arp : 42 ≤ f.size → bswap16 (ethernetAt f 0).etherType = ethTypeArp →
      h' = arpOutcome h (ethernetAt f 0) (arpAt f 14) → Handled f h h'
  | echo (reply : Frame) : EchoRequest h f →
      IsEchoReply h (ethernetAt f 0) (ipv4At f 14) reply → Offers h h' reply → Handled f h h'

section Ipv4
variable {f : Buffer} {h h' : Host} {eth : EthernetHeader} {ip : Ipv4Header}
  {ipHdrLen ipTotalLen : Nat}

theorem handleIcmp_cases (hh : 20 ≤ ipHdrLen) (h60 : ipHdrLen ≤ 60) (hin : 14+ipTotalLen ≤ f.size)
    (ht : ipTotalLen < 2^16) (hl : ipHdrLen = ipv4HeaderLength ip)
    (he : handleIcmp f h eth ip ipHdrLen ipTotalLen = .ok h') :
    Silent h h' ∨ ipHdrLen+8 ≤ ipTotalLen ∧ (icmpAt f (14+ipHdrLen)).type = icmpEchoRequest ∧
      checksum (f.slice (14+ipHdrLen) (ipTotalLen-ipHdrLen)) = 0 ∧
      ∃ reply, IsEchoReply h eth ip reply ∧ Offers h h' reply := by
  simp only [handleIcmp, sizeofEthernetHeader, sizeofIcmpEchoHeader] at he
  by_cases h8 : ipTotalLen < ipHdrLen+8
  · rw [if_pos h8] at he
    cases he
    exact Or.inl (.count h _)
  rw [if_neg h8, IcmpEchoHeader.read_ok f _ (by omega), ok_bind] at he
  by_cases hy : (icmpAt f (14+ipHdrLen)).type ≠ icmpEchoRequest
  · rw [if_pos hy] at he
    cases he
    exact Or.inl (.refl h)
  rw [if_neg hy, checksum16_ok f _ _ (by omega) (by omega), ok_bind] at he
  by_cases hc : checksum (f.slice (14+ipHdrLen) (ipTotalLen-ipHdrLen)) ≠ 0
  · rw [if_pos hc] at he
    cases he
    exact Or.inl (.count h _)
  rw [if_neg hc] at he
  obtain ⟨reply,hr,he⟩ := bind_eq_ok he
  refine Or.inr ⟨by omega, not_not.mp hy, not_not.mp hc, reply, ?_, ?_⟩
  · -- a reply was built, so it fits its buffer
    have hfit : 14+ipHdrLen+(ipTotalLen-ipHdrLen) ≤ icmpReplyBufferSize := by
      by_contra hbig
      exact buildEchoReply_not_inBounds (h.count .icmpRx) f eth ip _ ipHdrLen _ h60 (by omega)
        (by omega) (by omega) ⟨reply, hr⟩
    obtain ⟨b,hb,-,heth,hip,htype⟩ := buildEchoReply_bytes (h.count .icmpRx) f eth ip
      (icmpAt f (14+ipHdrLen)) ipHdrLen (ipTotalLen-ipHdrLen) hh (by omega) (by omega) hfit
    rw [hb] at hr
    cases hr
    rw [hl] at htype
    exact isEchoReply_slice h eth ip b _ (by omega) (by omega) heth hip htype
  · cases he
    exact (Silent.count h .icmpRx).offers (offers_afterSend _ reply [.ipv4Tx, .icmpTx])

theorem handleIpv4Payload_cases (hh : 20 ≤ ipHdrLen) (h60 : ipHdrLen ≤ 60)
    (ht : ipTotalLen < 2^16) (hl : ipHdrLen = ipv4HeaderLength ip)
    (he : handleIpv4Payload f h eth ip ipHdrLen ipTotalLen = .ok h') :
    Silent h h' ∨ 14+ipTotalLen ≤ f.size ∧ ip.protocol = ipv4ProtoIcmp ∧
      ipHdrLen+8 ≤ ipTotalLen ∧ (icmpAt f (14+ipHdrLen)).type = icmpEchoRequest ∧
      checksum (f.slice (14+ipHdrLen) (ipTotalLen-ipHdrLen)) = 0 ∧
      ∃ reply, IsEchoReply h eth ip reply ∧ Offers h h' reply := by
  simp only [handleIpv4Payload, sizeofEthernetHeader] at he
  split at he
  · cases he
    exact Or.inl (.count h _)
  split at he
  · cases he
    exact Or.inl (.count h _)
  rename_i hin
  split at he
  · obtain ⟨r,hr,he⟩ := bind_eq_ok he
    cases he
    exact Or.inl (udpHandlePacket_silent hr)
  split at he
  · cases he
    exact Or.inl (.count h _)
  rename_i hp
  cases handleIcmp_cases hh h60 (by omega) ht hl he with
  | inl hs => exact Or.inl hs
  | inr hr => exact Or.inr ⟨by omega, not_not.mp hp, hr⟩

theorem handleIpv4_cases (hm : macIsForMe h (ethernetAt f 0).dst = true)
    (hy : bswap16 (ethernetAt f 0).etherType = ethTypeIpv4) (he : handleIpv4 f h = .ok h') :
    Handled f h h' := by
  have h60 := ipv4HeaderLength_le (ipv4At f 14)
  have htot : (bswap16 (ipv4At f 14).totalLength).toNat < 2^16 := UInt16.toNat_lt _
  simp only [handleIpv4, sizeofEthernetHeader, sizeofIpv4Header] at he
  by_cases hs : f.size < 14+20
  · rw [if_pos hs] at he
    cases he
    exact .silent (.count h _)
  rw [if_neg hs, EthernetHeader.read_ok f 0 (by omega), Ipv4Header.read_ok f 14 (by omega)] at he
  simp only [ok_bind] at he
  by_cases hh : ipv4HeaderLength (ipv4At f 14) < 20
  · rw [if_pos hh] at he
    cases he
    exact .silent (.count h _)
  rw [if_neg hh] at he
  by_cases hf : f.size < 14+ipv4HeaderLength (ipv4At f 14)
  · rw [if_pos hf] at he
    cases he
    exact .silent (.count h _)
  rw [if_neg hf, checksum16_ok f 14 _ (by omega) (by omega), ok_bind] at he
  by_cases hc : checksum (f.slice 14 (ipv4HeaderLength (ipv4At f 14))) ≠ 0
  · rw [if_pos hc] at he
    cases he
    exact .silent (.count h _)
  rw [if_neg hc] at he
  by_cases hd : ipIsForMe h (ipv4At f 14) = false
  · rw [if_pos hd] at he
    cases he
    exact .silent (.count h _)
  rw [if_neg hd] at he
  cases handleIpv4Payload_cases (by omega) h60 htot rfl he with
  | inl hsil => exact .silent ((Silent.count h .ipv4Rx).trans hsil)
  | inr hecho =>
    obtain ⟨hin,hp,h8,htype,hsum,reply,hr,hoff⟩ := hecho
    exact .echo reply ⟨by omega, hm, hy, by omega, by omega, not_not.mp hc, by simpa using hd, h8,
      hin, hp, htype, hsum⟩ ⟨hr.ethernet, hr.ipv4, hr.type⟩ ((Silent.count h .ipv4Rx).offers hoff)

theorem netHandleFrame_cases (he : netHandleFrame f h = .ok h') : Handled f h h' := by
  simp only [netHandleFrame, sizeofEthernetHeader] at he
  by_cases hs : f.size < 14
  · rw [if_pos hs] at he
    cases he
    exact .silent (.count h _)
  rw [if_neg hs, EthernetHeader.read_ok f 0 (by omega), ok_bind] at he
  by_cases hm : macIsForMe h (ethernetAt f 0).dst = false
  · rw [if_pos hm] at he
    cases he
    exact .silent (.count h _)
  rw [if_neg hm] at he
  by_cases ha : bswap16 (ethernetAt f 0).etherType = ethTypeArp
  · rw [if_pos ha] at he
    by_cases hl : f.size < 42
    · simp only [handleArp, sizeofEthernetHeader, sizeofArpPacket] at he
      rw [if_pos (by omega)] at he
      cases he
      exact .silent (.count h _)
    · rw [handleArp_eq f h (by omega)] at he
      cases he
      exact .arp (by omega) ha rfl
  rw [if_neg ha] at he
  by_cases hi : bswap16 (ethernetAt f 0).etherType = ethTypeIpv4
  · rw [if_pos hi] at he
    exact handleIpv4_cases (by simpa using hm) hi he
  · rw [if_neg hi] at he
    cases he
    exact .silent (.count h _)

end Ipv4

end NetKernel.Replies
