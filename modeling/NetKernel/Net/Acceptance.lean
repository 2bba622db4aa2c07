import NetKernel.Net.Replies

/-! Which IPv4 datagrams are handed on. `handle_ipv4` is read over any upper
layer, so a call to it is visible in the result. -/
namespace NetKernel.Acceptance
open Words OnesComplement Headers Buffers ArpCaches ChatQueue Hosts Receive RoundTrip Bounds Replies

/-- The two functions that `handle_ipv4` hands bytes to. -/
structure UpperLayer where
  udpHandlePacket : Ip → Buffer → Nat → Nat → Host → Except Fault (Bool × Host)
  answerEcho : Buffer → Host → EthernetHeader → Ipv4Header → IcmpEchoHeader → Nat → Nat →
    Except Fault Host

def kernelUpperLayer : UpperLayer := ⟨udpHandlePacket, answerEcho⟩

section UpperLayer
variable (u : UpperLayer) (f : Buffer) (h : Host)

def handleIcmpOver (eth : EthernetHeader) (ip : Ipv4Header) (ipHdrLen ipTotalLen : Nat) :
    Except Fault Host := do
  if ipTotalLen < ipHdrLen+sizeofIcmpEchoHeader then .ok (h.count .droppedShort) else
  let icmp ← IcmpEchoHeader.read f (sizeofEthernetHeader+ipHdrLen)
  if icmp.type ≠ icmpEchoRequest then .ok h else
  let sum ← checksum16 f (sizeofEthernetHeader+ipHdrLen) (ipTotalLen-ipHdrLen)
  if sum ≠ 0 then .ok (h.count .droppedBadChecksum) else
  u.answerEcho f (h.count .icmpRx) eth ip icmp ipHdrLen (ipTotalLen-ipHdrLen)

def handleIpv4PayloadOver (eth : EthernetHeader) (ip : Ipv4Header) (ipHdrLen ipTotalLen : Nat) :
    Except Fault Host := do
  if ipTotalLen < ipHdrLen then .ok (h.count .droppedShort) else
  if f.size < sizeofEthernetHeader+ipTotalLen then .ok (h.count .droppedShort) else
  if ip.protocol = ipv4ProtoUdp then do
    let (_, h) ← u.udpHandlePacket ip.srcIp f (sizeofEthernetHeader+ipHdrLen)
      (ipTotalLen-ipHdrLen) h
    .ok h
  else
  if ip.protocol ≠ ipv4ProtoIcmp then .ok (h.count .droppedUnknownIpv4Protocol) else
  handleIcmpOver u f h eth ip ipHdrLen ipTotalLen

/-- `handle_ipv4` with its two callees as parameters. -/
def handleIpv4Over : Except Fault Host := do
  if f.size < sizeofEthernetHeader+sizeofIpv4Header then .ok (h.count .droppedShort) else
  let eth ← EthernetHeader.read f 0
  let ip ← Ipv4Header.read f sizeofEthernetHeader
  let ipHdrLen := ipv4HeaderLength ip
  if ipHdrLen < sizeofIpv4Header then .ok (h.count .droppedShort) else
  if f.size < sizeofEthernetHeader+ipHdrLen then .ok (h.count .droppedShort) else
  let sum ← checksum16 f sizeofEthernetHeader ipHdrLen
  if sum ≠ 0 then .ok (h.count .droppedBadChecksum) else
  if ipIsForMe h ip = false then .ok (h.count .droppedNotForMe) else
  handleIpv4PayloadOver u f (h.count .ipv4Rx) eth ip ipHdrLen (bswap16 ip.totalLength).toNat

end UpperLayer

theorem handleIpv4Over_kernel (f : Buffer) (h : Host) :
    handleIpv4Over kernelUpperLayer f h = handleIpv4 f h := rfl

/-! What is accepted. -/

/-- The header length, total length and message length that a frame claims. -/
def headerLen (f : Buffer) : Nat := ipv4HeaderLength (ipv4At f 14)
def totalLen (f : Buffer) : Nat := (bswap16 (ipv4At f 14).totalLength).toNat
def payloadLen (f : Buffer) : Nat := totalLen f-headerLen f

/-- The datagrams that pass every check before the protocol is looked at. -/
structure AcceptsIpv4 (h : Host) (f : Buffer) : Prop where
  size : 34 ≤ f.size
  headerLength : 20 ≤ headerLen f
  headerInFrame : 14+headerLen f ≤ f.size
  headerChecksum : checksum (f.slice 14 (headerLen f)) = 0
  dstIp : ipIsForMe h (ipv4At f 14) = true
  totalLength : headerLen f ≤ totalLen f
  inFrame : 14+totalLen f ≤ f.size

theorem acceptsIpv4_echoRequest {h : Host} {f : Buffer} (he : EchoRequest h f) :
    AcceptsIpv4 h f where
  size := he.size
  headerLength := he.headerLength
  headerInFrame := he.headerInFrame
  headerChecksum := he.headerChecksum
  dstIp := he.dstIp
  totalLength := by
    have := he.totalLength
    unfold headerLen totalLen
    omega
  inFrame := he.inFrame

theorem headerLen_le (f : Buffer) : headerLen f ≤ 60 := ipv4HeaderLength_le _

theorem totalLen_lt (f : Buffer) : totalLen f < 2^16 := UInt16.toNat_lt _

/-- A run that only counts, whatever the upper layer. -/
def OnlyCounts (h : Host) (run : UpperLayer → Except Fault Host) : Prop :=
  ∃ cs : List NetStatCounter, ∀ u, run u = .ok (cs.foldl Host.count h)

theorem onlyCounts_ok (h : Host) (cs : List NetStatCounter) :
    OnlyCounts h fun _ => .ok (cs.foldl Host.count h) := ⟨cs, fun _ => rfl⟩

theorem OnlyCounts.after {h : Host} {c : NetStatCounter} {run : UpperLayer → Except Fault Host}
    (hr : OnlyCounts (h.count c) run) : OnlyCounts h run := by
  obtain ⟨cs,hcs⟩ := hr
  exact ⟨c :: cs, hcs⟩

section Frame
variable {h : Host} {f : Buffer}

def dispatchIpv4 (u : UpperLayer) (h : Host) (f : Buffer) : Except Fault Host :=
  if (ipv4At f 14).protocol = ipv4ProtoUdp then
    u.udpHandlePacket (ipv4At f 14).srcIp f (14+headerLen f) (payloadLen f) h >>= fun r => .ok r.2
  else if (ipv4At f 14).protocol ≠ ipv4ProtoIcmp then
    .ok (h.count .droppedUnknownIpv4Protocol)
  else handleIcmpOver u f h (ethernetAt f 0) (ipv4At f 14) (headerLen f) (totalLen f)

theorem handleIpv4Over_eq (u : UpperLayer) (hs : 34 ≤ f.size) :
    handleIpv4Over u f h =
      if headerLen f < 20 then .ok (h.count .droppedShort) else
      if f.size < 14+headerLen f then .ok (h.count .droppedShort) else
      if checksum (f.slice 14 (headerLen f)) ≠ 0 then .ok (h.count .droppedBadChecksum) else
      if ipIsForMe h (ipv4At f 14) = false then .ok (h.count .droppedNotForMe) else
      if totalLen f < headerLen f then .ok ((h.count .ipv4Rx).count .droppedShort) else
      if f.size < 14+totalLen f then .ok ((h.count .ipv4Rx).count .droppedShort) else
      dispatchIpv4 u (h.count .ipv4Rx) f := by
  have h60 := headerLen_le f
  simp only [handleIpv4Over, sizeofEthernetHeader, sizeofIpv4Header]
  rw [if_neg (by omega), EthernetHeader.read_ok f 0 (by omega), Ipv4Header.read_ok f 14 (by omega)]
  simp only [ok_bind]
  change (if headerLen f < 20 then _ else _) = _
  split
  · rfl
  change (if f.size < 14+headerLen f then _ else _) = _
  split
  · rfl
  change (checksum16 f 14 (headerLen f) >>= _) = _
  rw [checksum16_ok f 14 _ (by omega) (by omega), ok_bind]
  rfl

theorem handleIpv4Over_accepted (u : UpperLayer) (ha : AcceptsIpv4 h f) :
    handleIpv4Over u f h = dispatchIpv4 u (h.count .ipv4Rx) f := by
  have hl := ha.headerLength
  have hf := ha.headerInFrame
  have ht := ha.totalLength
  have hin := ha.inFrame
  rw [handleIpv4Over_eq u ha.size, if_neg (by omega), if_neg (by omega),
    if_neg (not_not.mpr ha.headerChecksum), ha.dstIp, if_neg (by decide), if_neg (by omega),
    if_neg (by omega)]

theorem handleIpv4Over_rejected (hn : ¬ AcceptsIpv4 h f) :
    OnlyCounts h fun u => handleIpv4Over u f h := by
  by_cases hs : f.size < 34
  · simp only [handleIpv4Over, sizeofEthernetHeader, sizeofIpv4Header]
    simp only [if_pos (show f.size < 14+20 by omega)]
    exact onlyCounts_ok h [.droppedShort]
  simp only [handleIpv4Over_eq _ (show 34 ≤ f.size by omega)]
  by_cases hl : headerLen f < 20
  · simp only [if_pos hl]
    exact onlyCounts_ok h [.droppedShort]
  by_cases hf : f.size < 14+headerLen f
  · simp only [if_neg hl, if_pos hf]
    exact onlyCounts_ok h [.droppedShort]
  by_cases hc : checksum (f.slice 14 (headerLen f)) ≠ 0
  · simp only [if_neg hl, if_neg hf, if_pos hc]
    exact onlyCounts_ok h [.droppedBadChecksum]
  by_cases hd : ipIsForMe h (ipv4At f 14) = false
  · simp only [if_neg hl, if_neg hf, if_neg hc, if_pos hd]
    exact onlyCounts_ok h [.droppedNotForMe]
  by_cases ht : totalLen f < headerLen f
  · simp only [if_neg hl, if_neg hf, if_neg hc, if_neg hd, if_pos ht]
    exact onlyCounts_ok h [.ipv4Rx, .droppedShort]
  have hin : f.size < 14+totalLen f := by
    by_contra hin
    exact hn ⟨by omega, by omega, by omega, not_not.mp hc, by simpa using hd, by omega, by omega⟩
  simp only [if_neg hl, if_neg hf, if_neg hc, if_neg hd, if_neg ht, if_pos hin]
  exact onlyCounts_ok h [.ipv4Rx, .droppedShort]

theorem handleIcmpOver_other (g : Host) (ha : AcceptsIpv4 h f)
    (hn : ¬ (headerLen f+8 ≤ totalLen f ∧ (icmpAt f (14+headerLen f)).type = icmpEchoRequest ∧
      checksum (f.slice (14+headerLen f) (payloadLen f)) = 0)) :
    OnlyCounts g fun u => handleIcmpOver u f g (ethernetAt f 0) (ipv4At f 14) (headerLen f)
      (totalLen f) := by
  have hlt := totalLen_lt f
  have hin := ha.inFrame
  simp only [handleIcmpOver, sizeofEthernetHeader, sizeofIcmpEchoHeader]
  by_cases h8 : totalLen f < headerLen f+8
  · simp only [if_pos h8]
    exact onlyCounts_ok g [.droppedShort]
  simp only [if_neg h8, IcmpEchoHeader.read_ok f _ (show 14+headerLen f+8 ≤ f.size by omega),
    ok_bind]
  by_cases hy : (icmpAt f (14+headerLen f)).type ≠ icmpEchoRequest
  · simp only [if_pos hy]
    exact onlyCounts_ok g []
  simp only [if_neg hy, checksum16_ok f (14+headerLen f) (totalLen f-headerLen f) (by omega)
    (by omega), ok_bind]
  have hc : checksum (f.slice (14+headerLen f) (totalLen f-headerLen f)) ≠ 0 := by
    intro hc
    exact hn ⟨by omega, not_not.mp hy, hc⟩
  simp only [if_pos hc]
  exact onlyCounts_ok g [.droppedBadChecksum]

theorem netHandleFrame_ipv4 (hs : 14 ≤ f.size) (hm : macIsForMe h (ethernetAt f 0).dst = true)
    (ht : bswap16 (ethernetAt f 0).etherType = ethTypeIpv4) :
    netHandleFrame f h = handleIpv4Over kernelUpperLayer f h := by
  have ha : bswap16 (ethernetAt f 0).etherType ≠ ethTypeArp := by
    rw [ht]
    decide
  simp only [netHandleFrame, sizeofEthernetHeader]
  rw [if_neg (by omega), EthernetHeader.read_ok f 0 (by omega), ok_bind, hm, if_neg (by decide),
    if_neg ha, if_pos ht]
  rfl

theorem handleIpv4Over_echoRequest (u : UpperLayer) (he : EchoRequest h f) :
    handleIpv4Over u f h = u.answerEcho f ((h.count .ipv4Rx).count .icmpRx) (ethernetAt f 0)
      (ipv4At f 14) (icmpAt f (14+headerLen f)) (headerLen f) (payloadLen f) := by
  have hlt := totalLen_lt f
  have hin := (acceptsIpv4_echoRequest he).inFrame
  have h8 : headerLen f+8 ≤ totalLen f := he.totalLength
  have hy : (icmpAt f (14+headerLen f)).type = icmpEchoRequest := he.type
  have hc : checksum (f.slice (14+headerLen f) (totalLen f-headerLen f)) = 0 := he.icmpChecksum
  have hu : (ipv4At f 14).protocol ≠ ipv4ProtoUdp := by
    rw [he.protocol]
    decide
  rw [handleIpv4Over_accepted u (acceptsIpv4_echoRequest he), dispatchIpv4, if_neg hu,
    if_neg (not_not.mpr he.protocol)]
  simp only [handleIcmpOver, sizeofEthernetHeader, sizeofIcmpEchoHeader]
  rw [if_neg (by omega), IcmpEchoHeader.read_ok f _ (by omega), ok_bind,
    if_neg (not_not.mpr hy), checksum16_ok f _ _ (by omega) (by omega), ok_bind,
    if_neg (not_not.mpr hc)]
  rfl

theorem udpHandlePacket_slice (srcIp : Ip) (off len : Nat) (g : Host) (hin : off+len ≤ f.size) :
    udpHandlePacket srcIp f off len g =
      udpHandlePacket srcIp ⟨f.region, f.slice off len⟩ 0 len g := by
  have hlen := length_slice f off len hin
  have hb (i : Nat) (hi : i < len) :
      Buffer.byte ⟨f.region, f.slice off len⟩ (0+i) = f.byte (off+i) := by
    simp only [Buffer.byte, Buffer.slice, List.getD_eq_getElem?_getD, Nat.zero_add]
    rw [List.getElem?_take_of_lt hi, List.getElem?_drop]
  simp only [udpHandlePacket, sizeofUdpHeader]
  by_cases h8 : len < 8
  · rw [if_pos h8, if_pos h8]
  have hu : udpAt ⟨f.region, f.slice off len⟩ 0 = udpAt f off := by
    have h0 := hb 0 (by omega)
    simp only [Nat.add_zero] at h0
    simp (disch := omega) only [udpAt, word, Nat.add_assoc, hb, h0]
  rw [if_neg h8, if_neg h8, UdpHeader.read_ok f off (by omega),
    UdpHeader.read_ok ⟨f.region, f.slice off len⟩ 0 (by simp only [Buffer.size]; omega), hu]
  simp only [ok_bind]
  by_cases hl : (bswap16 (udpAt f off).length).toNat < 8 ∨
      len < (bswap16 (udpAt f off).length).toNat
  · rw [if_pos hl, if_pos hl]
  rw [if_neg hl, if_neg hl]
  generalize (bswap16 (udpAt f off).length).toNat = n at hl
  have hr : readBytes ⟨f.region, f.slice off len⟩ (0+8) (n-8) = readBytes f (off+8) (n-8) := by
    rw [readBytes_ok f _ _ (by omega),
      readBytes_ok _ _ _ (by simp only [Buffer.size]; omega)]
    simp only [Buffer.slice, List.drop_take, List.drop_drop, List.take_take]
    rw [Nat.min_eq_left (by omega), Nat.add_comm off (0+8), Nat.zero_add, Nat.add_comm 8]
  rw [hr]

end Frame

/-- For a frame of IPv4 addressed to this host: a datagram outside `AcceptsIpv4` reaches
neither callee, an accepted one of UDP reaches `udp_handle_packet` once with its source
and its own bytes, and of the others only an echo request is answered. -/
theorem receive_ipv4_datagram (f : Buffer) (h : Host) (hs : 14 ≤ f.size)
    (hm : macIsForMe h (ethernetAt f 0).dst = true)
    (ht : bswap16 (ethernetAt f 0).etherType = ethTypeIpv4) :
    netHandleFrame f h = handleIpv4Over kernelUpperLayer f h ∧
    (¬ AcceptsIpv4 h f → OnlyCounts h fun u => handleIpv4Over u f h) ∧
    (AcceptsIpv4 h f → (ipv4At f 14).protocol = ipv4ProtoUdp →
      (∀ u, handleIpv4Over u f h = u.udpHandlePacket (ipv4At f 14).srcIp f (14+headerLen f)
        (payloadLen f) (h.count .ipv4Rx) >>= fun r => .ok r.2) ∧
      ∀ g, udpHandlePacket (ipv4At f 14).srcIp f (14+headerLen f) (payloadLen f) g =
        udpHandlePacket (ipv4At f 14).srcIp ⟨f.region, f.slice (14+headerLen f) (payloadLen f)⟩ 0
          (payloadLen f) g) ∧
    (EchoRequest h f → AcceptsIpv4 h f ∧ ∀ u, handleIpv4Over u f h =
      u.answerEcho f ((h.count .ipv4Rx).count .icmpRx) (ethernetAt f 0) (ipv4At f 14)
        (icmpAt f (14+headerLen f)) (headerLen f) (payloadLen f)) ∧
    (AcceptsIpv4 h f → (ipv4At f 14).protocol ≠ ipv4ProtoUdp → ¬ EchoRequest h f →
      OnlyCounts h fun u => handleIpv4Over u f h) := by
  refine ⟨netHandleFrame_ipv4 hs hm ht, handleIpv4Over_rejected, fun ha hp => ⟨fun u => ?_,
    fun g => ?_⟩, fun he => ⟨acceptsIpv4_echoRequest he, fun u => handleIpv4Over_echoRequest u he⟩,
    fun ha hp hn => ?_⟩
  · rw [handleIpv4Over_accepted u ha, dispatchIpv4, if_pos hp]
  · apply udpHandlePacket_slice
    have := ha.inFrame
    have := ha.totalLength
    unfold payloadLen
    omega
  · simp only [handleIpv4Over_accepted _ ha, dispatchIpv4, if_neg hp]
    apply OnlyCounts.after (c := .ipv4Rx)
    by_cases hi : (ipv4At f 14).protocol ≠ ipv4ProtoIcmp
    · simp only [if_pos hi]
      exact onlyCounts_ok _ [.droppedUnknownIpv4Protocol]
    · simp only [if_neg hi]
      apply handleIcmpOver_other _ ha
      rintro ⟨h8,hy,hc⟩
      exact hn ⟨ha.size, hm, ht, ha.headerLength, ha.headerInFrame, ha.headerChecksum, ha.dstIp,
        h8, ha.inFrame, not_not.mp hi, hy, hc⟩

/-- A 43-byte frame of one UDP datagram to port 4000, its header sealed. -/
def datagramFrame (versionIhl : UInt8) (flagsFragment : UInt16) : Frame :=
  EthernetHeader.bytes ⟨defaultMac, ⟨2, 0, 0, 0, 0, 1⟩, bswap16 ethTypeIpv4⟩ ++
    ((sealHeader ⟨versionIhl, 0, bswap16 29, 0, bswap16 flagsFragment, 64, ipv4ProtoUdp, 0,
      ⟨10, 0, 2, 2⟩, defaultIp⟩).bytes ++
        (UdpHeader.bytes ⟨bswap16 9, bswap16 4000, bswap16 9, 0⟩ ++ [65]))

def listeningHost : Host :=
  { Host.boot defaultMac defaultIp (fun _ _ => true) with
    udpTable := (udpRegisterHandler udpClearHandlers 4000 (some (.application 0))).2 }

/-- The 9 bytes of the datagram reach `udp_handle_packet`, whatever that does. -/
theorem receive_ipv4_datagram_whole :
    netHandleFrame (received (datagramFrame 0x45 0)) listeningHost =
      handleIpv4Over kernelUpperLayer (received (datagramFrame 0x45 0)) listeningHost ∧
    ∀ u : UpperLayer, handleIpv4Over u (received (datagramFrame 0x45 0)) listeningHost =
      u.udpHandlePacket ⟨10, 0, 2, 2⟩ (received (datagramFrame 0x45 0)) 34 9
        (listeningHost.count .ipv4Rx) >>= fun r => .ok r.2 := by
  obtain ⟨hover,-,hudp,-⟩ := receive_ipv4_datagram (received (datagramFrame 0x45 0)) listeningHost
    (by decide) (by decide) (by decide)
  have haccepts : AcceptsIpv4 listeningHost (received (datagramFrame 0x45 0)) :=
    ⟨by decide, by decide, by decide, by decide, by decide, by decide, by decide⟩
  exact ⟨hover, (hudp haccepts (by decide)).1⟩

def isVersion4 (ip : Ipv4Header) : Prop := ip.versionIhl.toNat / 16 = 4

def isWhole (ip : Ipv4Header) : Prop := (bswap16 ip.flagsFragment).toNat % 2^14 = 0

/-- A handler ran: bytes reached `udp_handle_packet`. -/
def delivers (h : Host) (f : Buffer) : Prop :=
  ∃ h', netHandleFrame f h = .ok h' ∧ h'.calls ≠ h.calls

theorem delivers_datagramFrame {versionIhl : UInt8} {flagsFragment : UInt16}
    (hc : (netHandleFrame (received (datagramFrame versionIhl flagsFragment))
      listeningHost).toOption.map (·.calls.length) = some 1) :
    delivers listeningHost (received (datagramFrame versionIhl flagsFragment)) := by
  cases he : netHandleFrame (received (datagramFrame versionIhl flagsFragment)) listeningHost with
  | error e => simp [he, Except.toOption] at hc
  | ok h' =>
    refine ⟨h', he, fun hcalls => ?_⟩
    simp only [he, Except.toOption, Option.map_some, hcalls] at hc
    exact absurd hc (by decide)

/-- Neither field is looked at: a datagram of version 6 and a first fragment are delivered. -/
theorem receive_ipv4_unchecked :
    (¬ ∀ (h : Host) (f : Buffer), macIsForMe h (ethernetAt f 0).dst = true →
      bswap16 (ethernetAt f 0).etherType = ethTypeIpv4 → delivers h f →
      isVersion4 (ipv4At f 14)) ∧
    ¬ ∀ (h : Host) (f : Buffer), macIsForMe h (ethernetAt f 0).dst = true →
      bswap16 (ethernetAt f 0).etherType = ethTypeIpv4 → delivers h f →
      isWhole (ipv4At f 14) := by
  constructor
  · intro hall
    have := hall listeningHost (received (datagramFrame 0x65 0)) (by decide) (by decide)
      (delivers_datagramFrame (by decide +kernel))
    exact absurd this (show ¬ (0x65 : UInt8).toNat / 16 = 4 by decide)
  · intro hall
    have := hall listeningHost (received (datagramFrame 0x45 0x2000)) (by decide) (by decide)
      (delivers_datagramFrame (by decide +kernel))
    exact absurd this (show ¬ (bswap16 (bswap16 0x2000)).toNat % 2^14 = 0 by decide)

end NetKernel.Acceptance
