import NetKernel.Net.Acceptance

/-! The echo reply as a byte string: headers and message of any length, both sealed. -/
namespace NetKernel.EchoReply
open Words OnesComplement Headers Buffers ArpCaches ChatQueue Hosts Receive RoundTrip Bounds
  Replies Acceptance

theorem checksum_zeros (l : List UInt8) (n : Nat) (he : l.length % 2 = 0) :
    checksum (l ++ List.replicate n 0) = checksum l := by
  rw [checksum, checksum, wordSum_append _ _ he, wordSum_replicate_zero, Nat.add_zero]

def sealEcho (i : IcmpEchoHeader) (payload : List UInt8) : IcmpEchoHeader :=
  { i with checksum := bswap16 (checksum (i.bytes ++ payload)) }

def echoMessage (i : IcmpEchoHeader) (payload : List UInt8) : List UInt8 :=
  (sealEcho i payload).bytes ++ payload

def afterEchoChecksum (i : IcmpEchoHeader) : List UInt8 :=
  store16 i.identifier ++ store16 i.sequence

theorem echoHeader_bytes (i : IcmpEchoHeader) :
    i.bytes = [i.type, i.code] ++ (store16 i.checksum ++ afterEchoChecksum i) := rfl

theorem sealEcho_bytes (i : IcmpEchoHeader) (payload : List UInt8) : (sealEcho i payload).bytes =
    [i.type, i.code] ++ (store16 (bswap16 (checksum (i.bytes ++ payload))) ++
      afterEchoChecksum i) := rfl

theorem echoMessage_checksum (i : IcmpEchoHeader) (payload : List UInt8) (h : i.checksum = 0)
    (hl : payload.length+8 < 2^16) : checksum (echoMessage i payload) = 0 := by
  have hs := checksum_seal [i.type, i.code] (afterEchoChecksum i ++ payload)
    (by decide : 2 % 2 = 0)
    (by simp only [afterEchoChecksum, List.length_append, List.length_cons, List.length_nil,
      length_store16]; omega)
  rw [echoMessage, sealEcho_bytes, echoHeader_bytes, h]
  simpa only [List.append_assoc] using hs

/-- The frame that answers an echo request: no option of the request, but room for them. -/
def echoReplyFrame (h : Host) (eth : EthernetHeader) (ip : Ipv4Header) (icmp : IcmpEchoHeader)
    (ipHdrLen : Nat) (payload : List UInt8) : Frame :=
  (copyEthHeaderReply h eth).bytes ++ ((sealHeader (copyIpHeaderBasic h ip)).bytes ++
    (List.replicate (ipHdrLen-20) 0 ++ echoMessage (copyIcmpEchoReply icmp) payload))

theorem seal_region (r : Region) (l pre post t : List UInt8) (c : UInt16) (off n : Nat)
    (ho : off = l.length) (hn : n = pre.length+2+post.length) (hlt : n < 2^16) :
    writeBytes ⟨r, l ++ (pre ++ (store16 c ++ (post ++ t)))⟩ (off+pre.length) (store16 0) =
      .ok ⟨r, l ++ (pre ++ (store16 0 ++ (post ++ t)))⟩ ∧
    checksum16 ⟨r, l ++ (pre ++ (store16 0 ++ (post ++ t)))⟩ off n =
      .ok (checksum (pre ++ (store16 0 ++ post))) ∧
    ∀ s, writeBytes ⟨r, l ++ (pre ++ (store16 0 ++ (post ++ t)))⟩ (off+pre.length) (store16 s) =
      .ok ⟨r, l ++ (pre ++ (store16 s ++ (post ++ t)))⟩ := by
  have hw (x y : UInt16) := writeBytes_mid r (l ++ pre) (store16 x) (post ++ t) (store16 y)
    (off+pre.length) (by rw [List.length_append, ho]) rfl
  have hs := slice_mid r l (pre ++ (store16 0 ++ post)) t off n ho
    (by simp only [List.length_append, length_store16]; omega)
  simp only [List.append_assoc] at hw hs
  refine ⟨hw c 0, ?_, hw 0⟩
  rw [checksum16_ok _ _ _ (by simp only [Buffer.size, List.length_append, length_store16]; omega)
    hlt, hs]

section Build
variable (h : Host) (f : Buffer) (eth : EthernetHeader) (ip : Ipv4Header) (icmp : IcmpEchoHeader)
  (ipHdrLen icmpLen : Nat)

theorem zeroed_layers (hh : 20 ≤ ipHdrLen) (hi : 8 ≤ icmpLen)
    (hr : 14+ipHdrLen+icmpLen ≤ icmpReplyBufferSize) :
    Buffer.zeroed .icmpReply icmpReplyBufferSize = ⟨.icmpReply, [] ++ (List.replicate 14 0 ++
      (List.replicate 20 0 ++ (List.replicate (ipHdrLen-20) 0 ++ (List.replicate 8 0 ++
        (List.replicate (icmpLen-8) 0 ++ List.replicate (1514-(14+ipHdrLen+icmpLen)) 0)))))⟩ := by
  simp only [icmpReplyBufferSize] at hr
  simp only [Buffer.zeroed, List.replicate_append_replicate, List.nil_append, icmpReplyBufferSize]
  congr 2
  omega

theorem buildEchoReply_eq (hh : 20 ≤ ipHdrLen) (h60 : ipHdrLen ≤ 60) (hi : 8 ≤ icmpLen)
    (hf : 14+ipHdrLen+icmpLen ≤ f.size) (hr : 14+ipHdrLen+icmpLen ≤ icmpReplyBufferSize) :
    buildEchoReply h f eth ip icmp ipHdrLen icmpLen =
      .ok (echoReplyFrame h eth ip icmp ipHdrLen (f.slice (14+ipHdrLen+8) (icmpLen-8))) := by
  have hz := zeroed_layers ipHdrLen icmpLen hh hi hr
  have hp := length_slice f (14+ipHdrLen+8) (icmpLen-8) (by omega)
  have hread := readBytes_ok f (14+ipHdrLen+8) (icmpLen-8) (by omega)
  have hle := EthernetHeader.length_bytes (copyEthHeaderReply h eth)
  have hli := Ipv4Header.length_bytes (copyIpHeaderBasic h ip)
  have hlm := IcmpEchoHeader.length_bytes (copyIcmpEchoReply icmp)
  have hq := bytes_split (copyIpHeaderBasic h ip)
  have hm := echoHeader_bytes (copyIcmpEchoReply icmp)
  have hq0 : (copyIpHeaderBasic h ip).headerChecksum = 0 := rfl
  have hm0 : (copyIcmpEchoReply icmp).checksum = 0 := rfl
  have hl14 : (List.replicate 14 (0 : UInt8)).length = 14 := List.length_replicate
  have hl20 : (List.replicate 20 (0 : UInt8)).length = 20 := List.length_replicate
  have hl8 : (List.replicate 8 (0 : UInt8)).length = 8 := List.length_replicate
  have hlo : (List.replicate (ipHdrLen-20) (0 : UInt8)).length = ipHdrLen-20 :=
    List.length_replicate
  have hlp : (List.replicate (icmpLen-8) (0 : UInt8)).length = icmpLen-8 := List.length_replicate
  simp only [icmpReplyBufferSize] at hr
  simp only [buildEchoReply, echoReplyFrame, sizeofEthernetHeader, sizeofIcmpEchoHeader, hz, hread,
    ok_bind]
  generalize f.slice (14+ipHdrLen+8) (icmpLen-8) = payload at hp
  generalize (copyEthHeaderReply h eth).bytes = ethBytes at hle
  generalize copyIpHeaderBasic h ip = q at hli hq hq0
  generalize copyIcmpEchoReply icmp = m at hlm hm hm0
  generalize hopt : List.replicate (ipHdrLen-20) (0 : UInt8) = opt at hlo
  generalize List.replicate (1514-(14+ipHdrLen+icmpLen)) (0 : UInt8) = rest
  generalize List.replicate (icmpLen-8) (0 : UInt8) = zp at hlp
  -- the four layers
  have e1 := writeBytes_mid .icmpReply [] (List.replicate 14 0) (List.replicate 20 0 ++ (opt ++
    (List.replicate 8 0 ++ (zp ++ rest)))) ethBytes 0 rfl (by omega)
  have e2 := writeBytes_mid .icmpReply ethBytes (List.replicate 20 0) (opt ++ (List.replicate 8 0 ++
    (zp ++ rest))) q.bytes 14 hle.symm (by omega)
  have e3 := writeBytes_mid .icmpReply (ethBytes ++ (q.bytes ++ opt)) (List.replicate 8 0)
    (zp ++ rest) m.bytes (14+ipHdrLen) (by simp only [List.length_append]; omega) (by omega)
  have e4 := writeBytes_mid .icmpReply (ethBytes ++ (q.bytes ++ (opt ++ m.bytes))) zp rest payload
    (14+ipHdrLen+8) (by simp only [List.length_append]; omega) (by omega)
  -- the two checksums
  have hls := Ipv4Header.length_bytes (sealHeader q)
  obtain ⟨e5,c5,e6⟩ := seal_region .icmpReply ethBytes (beforeChecksum q) (afterChecksum q ++ opt)
    (m.bytes ++ (payload ++ rest)) 0 14 ipHdrLen hle.symm
    (by simp only [hq, hq0, List.length_append, length_store16] at hli ⊢; omega) (by omega)
  obtain ⟨e7,c7,e8⟩ := seal_region .icmpReply (ethBytes ++ ((sealHeader q).bytes ++ opt))
    [m.type, m.code] (afterEchoChecksum m ++ payload) rest 0 (14+ipHdrLen) icmpLen
    (by simp only [List.length_append]; omega)
    (by simp only [hm, hm0, List.length_append, length_store16] at hlm ⊢; omega) (by omega)
  have hc : checksum (beforeChecksum q ++ (store16 0 ++ (afterChecksum q ++ opt))) =
      checksum q.bytes := by
    have := checksum_zeros q.bytes (ipHdrLen-20) (by rw [hli])
    rw [hopt, hq, hq0] at this
    rw [hq, hq0]
    simpa only [List.append_assoc] using this
  have hlen : (ethBytes ++ ((sealHeader q).bytes ++ (opt ++ echoMessage m payload))).length =
      14+ipHdrLen+icmpLen := by
    have := IcmpEchoHeader.length_bytes (sealEcho m payload)
    simp only [echoMessage, List.length_append]
    omega
  have e9 := slice_mid .icmpReply [] (ethBytes ++ ((sealHeader q).bytes ++ (opt ++
    echoMessage m payload))) rest 0 (14+ipHdrLen+icmpLen) rfl hlen.symm
  have h10 : (beforeChecksum q).length = 10 := rfl
  have h2 : [m.type, m.code].length = 2 := rfl
  rw [hc] at c5
  simp only [List.append_assoc, List.nil_append, hq, hq0, hm, hm0, h10, h2, sealHeader_bytes,
    echoMessage, sealEcho_bytes] at e1 e2 e3 e4 e5 c5 e6 e7 c7 e8 e9 hlen ⊢
  simp only [e1, e2, e3, e4, e5, c5, e6, e7, c7, e8, ok_bind]
  rw [readBytes_ok _ _ _ (by simp only [Buffer.size, List.length_append] at hlen ⊢; omega), e9]

end Build

section Reads
variable (h : Host) (eth : EthernetHeader) (ip : Ipv4Header) (icmp : IcmpEchoHeader)
  (ipHdrLen : Nat) (payload : List UInt8)

theorem ethernetAt_echoReplyFrame :
    ethernetAt (received (echoReplyFrame h eth ip icmp ipHdrLen payload)) 0 =
      copyEthHeaderReply h eth :=
  ethernetAt_append _ _ _

theorem ipv4At_echoReplyFrame :
    ipv4At (received (echoReplyFrame h eth ip icmp ipHdrLen payload)) 14 =
      sealHeader (copyIpHeaderBasic h ip) :=
  ipv4At_append _ _ _ _ 14 (EthernetHeader.length_bytes _).symm

variable (hh : 20 ≤ ipHdrLen)
include hh

theorem length_echoReplyFrame : (echoReplyFrame h eth ip icmp ipHdrLen payload).length =
    14+ipHdrLen+(8+payload.length) := by
  simp only [echoReplyFrame, echoMessage, List.length_append, EthernetHeader.length_bytes,
    Ipv4Header.length_bytes, IcmpEchoHeader.length_bytes, List.length_replicate]
  omega

theorem echoReplyFrame_split : ∃ l : List UInt8, l.length = 14+ipHdrLen ∧
    echoReplyFrame h eth ip icmp ipHdrLen payload =
      l ++ echoMessage (copyIcmpEchoReply icmp) payload := by
  refine ⟨(copyEthHeaderReply h eth).bytes ++ ((sealHeader (copyIpHeaderBasic h ip)).bytes ++
    List.replicate (ipHdrLen-20) 0), ?_, ?_⟩
  · simp only [List.length_append, EthernetHeader.length_bytes, Ipv4Header.length_bytes,
      List.length_replicate]
    omega
  · simp only [echoReplyFrame, List.append_assoc]

theorem icmpAt_echoReplyFrame :
    icmpAt (received (echoReplyFrame h eth ip icmp ipHdrLen payload)) (14+ipHdrLen) =
      sealEcho (copyIcmpEchoReply icmp) payload := by
  obtain ⟨l,hl,hf⟩ := echoReplyFrame_split h eth ip icmp ipHdrLen payload hh
  rw [hf]
  exact icmpAt_append _ l _ payload _ hl.symm

theorem payload_echoReplyFrame :
    (received (echoReplyFrame h eth ip icmp ipHdrLen payload)).slice (14+ipHdrLen+8)
      payload.length = payload := by
  obtain ⟨l,hl,hf⟩ := echoReplyFrame_split h eth ip icmp ipHdrLen payload hh
  have hm := slice_mid .received (l ++ (sealEcho (copyIcmpEchoReply icmp) payload).bytes) payload []
    (14+ipHdrLen+8) payload.length
    (by rw [List.length_append, hl, IcmpEchoHeader.length_bytes]) rfl
  rw [List.append_nil, List.append_assoc] at hm
  rw [hf]
  exact hm

theorem headerChecksum_echoReplyFrame (h60 : ipHdrLen ≤ 60) :
    checksum16 (received (echoReplyFrame h eth ip icmp ipHdrLen payload)) 14 ipHdrLen = .ok 0 := by
  have hli := Ipv4Header.length_bytes (sealHeader (copyIpHeaderBasic h ip))
  have hlen := length_echoReplyFrame h eth ip icmp ipHdrLen payload hh
  have hs := slice_mid .received (copyEthHeaderReply h eth).bytes
    ((sealHeader (copyIpHeaderBasic h ip)).bytes ++ List.replicate (ipHdrLen-20) 0)
    (echoMessage (copyIcmpEchoReply icmp) payload) 14 ipHdrLen
    (EthernetHeader.length_bytes _).symm
    (by rw [List.length_append, List.length_replicate]; omega)
  rw [List.append_assoc] at hs
  rw [checksum16_ok _ _ _ (by simp only [Buffer.size, received]; omega) (by omega)]
  have hz : checksum ((received (echoReplyFrame h eth ip icmp ipHdrLen payload)).slice 14
      ipHdrLen) = checksum ((sealHeader (copyIpHeaderBasic h ip)).bytes ++
        List.replicate (ipHdrLen-20) 0) := congrArg checksum hs
  rw [hz, checksum_zeros _ _ (by rw [hli]), sealHeader_checksum _ rfl]

theorem icmpChecksum_echoReplyFrame (hl : 8+payload.length < 2^16) :
    checksum16 (received (echoReplyFrame h eth ip icmp ipHdrLen payload)) (14+ipHdrLen)
      (8+payload.length) = .ok 0 := by
  obtain ⟨l,hll,hf⟩ := echoReplyFrame_split h eth ip icmp ipHdrLen payload hh
  have hlen := length_echoReplyFrame h eth ip icmp ipHdrLen payload hh
  have hs := slice_mid .received l (echoMessage (copyIcmpEchoReply icmp) payload) []
    (14+ipHdrLen) (8+payload.length) hll.symm
    (by rw [echoMessage, List.length_append, IcmpEchoHeader.length_bytes])
  rw [List.append_nil, ← hf] at hs
  rw [checksum16_ok _ _ _ (by simp only [Buffer.size, received]; omega) hl]
  change Except.ok (checksum (Buffer.slice ⟨.received, _⟩ _ _)) = _
  rw [hs, echoMessage_checksum _ _ rfl (by omega)]

end Reads

/-- `reply` answers the echo request `f`: the addresses turned around, the message
returned as a reply, both checksums valid. -/
structure AnswersEcho (h : Host) (f reply : Buffer) : Prop where
  size : reply.size = 14+totalLen f
  ethernetSrc : (ethernetAt reply 0).src = h.myMac
  ethernetDst : (ethernetAt reply 0).dst = (ethernetAt f 0).src
  etherType : (ethernetAt reply 0).etherType = (ethernetAt f 0).etherType
  srcIp : (ipv4At reply 14).srcIp = h.myIp
  dstIp : (ipv4At reply 14).dstIp = (ipv4At f 14).srcIp
  headerLength : headerLen reply = headerLen f
  totalLength : totalLen reply = totalLen f
  protocol : (ipv4At reply 14).protocol = (ipv4At f 14).protocol
  type : (icmpAt reply (14+headerLen f)).type = icmpEchoReply
  code : (icmpAt reply (14+headerLen f)).code = 0
  identifier : (icmpAt reply (14+headerLen f)).identifier = (icmpAt f (14+headerLen f)).identifier
  sequence : (icmpAt reply (14+headerLen f)).sequence = (icmpAt f (14+headerLen f)).sequence
  payload : reply.slice (14+headerLen f+8) (payloadLen f-8) =
    f.slice (14+headerLen f+8) (payloadLen f-8)
  headerChecksum : checksum16 reply 14 (headerLen f) = .ok 0
  icmpChecksum : checksum16 reply (14+headerLen f) (payloadLen f) = .ok 0

theorem afterSend_legal (h : Host) (frame : Frame) (cs : List NetStatCounter)
    (h0 : 0 < frame.length) (hm : frame.length ≤ virtioNetMaxFrameSize) :
    (afterSend h frame cs).1 = h.accepts h.offered frame := by
  have hlegal : ¬ (frame.length = 0 ∨ virtioNetMaxFrameSize < frame.length) := by omega
  simp only [afterSend, netSendRaw, if_neg hlegal]
  cases h.accepts h.offered frame <;> rfl

section Reply
variable {h : Host} {f : Buffer}

theorem answersEcho_echoReplyFrame (he : EchoRequest h f) :
    AnswersEcho h f (received (echoReplyFrame h (ethernetAt f 0) (ipv4At f 14)
      (icmpAt f (14+headerLen f)) (headerLen f)
      (f.slice (14+headerLen f+8) (payloadLen f-8)))) := by
  have hlt := totalLen_lt f
  have h20 : 20 ≤ headerLen f := he.headerLength
  have h8 : headerLen f+8 ≤ totalLen f := he.totalLength
  have hin : 14+totalLen f ≤ f.size := he.inFrame
  have hpl : payloadLen f = totalLen f-headerLen f := rfl
  have hp := length_slice f (14+headerLen f+8) (payloadLen f-8) (by omega)
  have hn : payloadLen f = 8+(f.slice (14+headerLen f+8) (payloadLen f-8)).length := by omega
  have hip := ipv4At_echoReplyFrame h (ethernetAt f 0) (ipv4At f 14) (icmpAt f (14+headerLen f))
    (headerLen f) (f.slice (14+headerLen f+8) (payloadLen f-8))
  have heth := ethernetAt_echoReplyFrame h (ethernetAt f 0) (ipv4At f 14)
    (icmpAt f (14+headerLen f)) (headerLen f) (f.slice (14+headerLen f+8) (payloadLen f-8))
  have hicmp := icmpAt_echoReplyFrame h (ethernetAt f 0) (ipv4At f 14)
    (icmpAt f (14+headerLen f)) (headerLen f) (f.slice (14+headerLen f+8) (payloadLen f-8)) h20
  exact {
    size := by
      have := length_echoReplyFrame h (ethernetAt f 0) (ipv4At f 14) (icmpAt f (14+headerLen f))
        (headerLen f) (f.slice (14+headerLen f+8) (payloadLen f-8)) h20
      simp only [Buffer.size, received]
      omega
    ethernetSrc := by rw [heth]; rfl
    ethernetDst := by rw [heth]; rfl
    etherType := by rw [heth]; rfl
    srcIp := by rw [hip]; rfl
    dstIp := by rw [hip]; rfl
    headerLength := by rw [headerLen, hip]; rfl
    totalLength := by rw [totalLen, hip]; rfl
    protocol := by rw [hip]; rfl
    type := by rw [hicmp]; rfl
    code := by rw [hicmp]; rfl
    identifier := by rw [hicmp]; rfl
    sequence := by rw [hicmp]; rfl
    payload := by
      have := payload_echoReplyFrame h (ethernetAt f 0) (ipv4At f 14) (icmpAt f (14+headerLen f))
        (headerLen f) (f.slice (14+headerLen f+8) (payloadLen f-8)) h20
      rwa [hp] at this
    headerChecksum := headerChecksum_echoReplyFrame _ _ _ _ _ _ h20 (headerLen_le f)
    icmpChecksum := by
      have := icmpChecksum_echoReplyFrame h (ethernetAt f 0) (ipv4At f 14)
        (icmpAt f (14+headerLen f)) (headerLen f) (f.slice (14+headerLen f+8) (payloadLen f-8)) h20
        (by omega)
      rwa [← hn] at this }

/-- An echo request whose reply fits is answered by one frame. -/
theorem echoRequest_answered (he : EchoRequest h f) (hfit : 14+totalLen f ≤ 1514) :
    ∃ h' reply, netHandleFrame f h = .ok h' ∧ AnswersEcho h f (received reply) ∧
      reply.length = 14+totalLen f ∧ h'.offered = h.offered ++ [reply] ∧
      h'.sent = if h.accepts h.offered reply then h.sent ++ [reply] else h.sent := by
  have h20 : 20 ≤ headerLen f := he.headerLength
  have h8 : headerLen f+8 ≤ totalLen f := he.totalLength
  have hin : 14+totalLen f ≤ f.size := he.inFrame
  have hpl : payloadLen f = totalLen f-headerLen f := rfl
  have hans := answersEcho_echoReplyFrame he
  have hbuild := buildEchoReply_eq ((h.count .ipv4Rx).count .icmpRx) f (ethernetAt f 0)
    (ipv4At f 14) (icmpAt f (14+headerLen f)) (headerLen f) (payloadLen f) h20 (headerLen_le f)
    (by omega) (by omega) (by simp only [icmpReplyBufferSize]; omega)
  have hrun : netHandleFrame f h = .ok (afterSend ((h.count .ipv4Rx).count .icmpRx)
      (echoReplyFrame h (ethernetAt f 0) (ipv4At f 14) (icmpAt f (14+headerLen f)) (headerLen f)
        (f.slice (14+headerLen f+8) (payloadLen f-8))) [.ipv4Tx, .icmpTx]).2 := by
    rw [netHandleFrame_ipv4 (by omega) he.forMe he.etherType, handleIpv4Over_echoRequest _ he]
    change answerEcho f _ _ _ _ _ _ = _
    rw [answerEcho, hbuild]
    rfl
  generalize echoReplyFrame h (ethernetAt f 0) (ipv4At f 14) (icmpAt f (14+headerLen f))
    (headerLen f) (f.slice (14+headerLen f+8) (payloadLen f-8)) = reply at hans hrun
  have hlen : reply.length = 14+totalLen f := hans.size
  refine ⟨_, reply, hrun, hans, hlen, (offers_afterSend _ reply _).offered, ?_⟩
  rw [afterSend_sent, afterSend_legal _ reply _ (by omega)
    (by simp only [virtioNetMaxFrameSize]; omega)]
  rfl

end Reply

/-- A 53-byte echo request with a word of options and a payload of three bytes. -/
def pingWithOptions : Frame :=
  let ip : Ipv4Header := ⟨0x46, 0, bswap16 35, 0, 0, 64, ipv4ProtoIcmp, 0, ⟨10, 0, 2, 2⟩, defaultIp⟩
  EthernetHeader.bytes ⟨defaultMac, ⟨2, 0, 0, 0, 0, 1⟩, bswap16 ethTypeIpv4⟩ ++
    ({ ip with headerChecksum := bswap16 (checksum (ip.bytes ++ [1, 1, 1, 0])) }.bytes ++
      ([1, 1, 1, 0] ++ echoMessage ⟨icmpEchoRequest, 0, 0, 7, 9⟩ [1, 2, 3]))

theorem echoRequest_answered_pingWithOptions : ∃ h' reply,
    netHandleFrame (received pingWithOptions)
      (Host.boot defaultMac defaultIp fun _ _ => true) = .ok h' ∧
    AnswersEcho (Host.boot defaultMac defaultIp fun _ _ => true) (received pingWithOptions)
      (received reply) ∧
    reply.length = 14+totalLen (received pingWithOptions) ∧ h'.offered = [] ++ [reply] ∧
    h'.sent = if true then [] ++ [reply] else [] :=
  echoRequest_answered (h := Host.boot defaultMac defaultIp fun _ _ => true)
    (f := received pingWithOptions)
    ⟨by decide, by decide, by decide, by decide, by decide, by decide, by decide, by decide,
      by decide, by decide, by decide, by decide⟩ (by decide)

end NetKernel.EchoReply
