import NetKernel.Net.Replies

/-! ARP resolution between two hosts: a packet for an unknown address becomes a request,
the request a reply, and the packet sent again goes to the address learnt. -/
namespace NetKernel.Handshake
open Words OnesComplement Headers Buffers ArpCaches ChatQueue Hosts Receive Send RoundTrip Replies

/-- The backend takes every frame offered to it. -/
def Accepting (h : Host) : Prop := ∀ log frame, h.accepts log frame = true

structure Transmits (h h' : Host) (frame : Frame) : Prop where
  offered : h'.offered = h.offered ++ [frame]
  sent : h'.sent = h.sent ++ [frame]

theorem afterSend_transmits (h : Host) (frame : Frame) (cs : List NetStatCounter)
    (ha : Accepting h) (h0 : 0 < frame.length) (hm : frame.length ≤ virtioNetMaxFrameSize) :
    (afterSend h frame cs).1 = true ∧ Transmits h (afterSend h frame cs).2 frame := by
  obtain ⟨h',he,ho,hs⟩ := afterSend_accepted h frame cs h0 hm (ha _ _)
  rw [he]
  exact ⟨rfl, ho, hs⟩

theorem length_arpFrame (e : EthernetHeader) (a : ArpPacket) :
    (e.bytes ++ a.bytes).length = 42 := by
  rw [List.length_append, EthernetHeader.length_bytes, ArpPacket.length_bytes]

theorem arpFrame_transmits (h : Host) (e : EthernetHeader) (a : ArpPacket)
    (cs : List NetStatCounter) (ha : Accepting h) :
    (afterSend h (e.bytes ++ a.bytes) cs).1 = true ∧
      Transmits h (afterSend h (e.bytes ++ a.bytes) cs).2 (e.bytes ++ a.bytes) := by
  have hl := length_arpFrame e a
  exact afterSend_transmits h _ cs ha (by omega) (by rw [virtioNetMaxFrameSize]; omega)

theorem learn_eq (h : Host) (arp : ArpPacket) (hl : arpLearns arp = true) :
    learn h arp = { h with arpCache := arpCacheInsert h.arpCache arp.spa arp.sha } := by
  rw [learn, if_pos hl]

theorem arpLearns_request (h : Host) (ip : Ip) : arpLearns (arpRequestPacket h ip) = true := by
  simp only [arpLearns, arpRequestPacket, bswap16_bswap16]
  decide

theorem arpLearns_reply (h : Host) (arp : ArpPacket) :
    arpLearns (arpReplyPacket h arp) = true := by
  simp only [arpLearns, arpReplyPacket, bswap16_bswap16]
  decide

theorem handle_request (A B : Host) (hB : Accepting B) : ∃ B',
    netHandleFrame (received (arpRequestFrame A B.myIp)) B = .ok B' ∧
      Transmits B B' (arpReplyFrame B (arpRequestHeader A) (arpRequestPacket A B.myIp)) ∧
      (arpCacheLookup B'.arpCache A.myIp).1 = some A.myMac := by
  have hq : bswap16 (arpRequestPacket A B.myIp).oper = arpOpRequest := bswap16_bswap16 _
  have htpa : ¬ (arpRequestPacket A B.myIp).tpa ≠ B.myIp := not_not.mpr rfl
  have hl := learn_eq B (arpRequestPacket A B.myIp) (arpLearns_request A B.myIp)
  have hm : macIsForMe B (arpRequestHeader A).dst = true := rfl
  obtain ⟨-,hsend⟩ := arpFrame_transmits ((learn B (arpRequestPacket A B.myIp)).count .arpRx)
    (arpReplyHeader B (arpRequestHeader A)) (arpReplyPacket B (arpRequestPacket A B.myIp)) [.arpTx]
    (by rw [hl]; exact hB)
  have hoff := offers_afterSend ((learn B (arpRequestPacket A B.myIp)).count .arpRx)
    (arpReplyFrame B (arpRequestHeader A) (arpRequestPacket A B.myIp)) [.arpTx]
  refine ⟨_, netHandleFrame_arpFrame B _ _ (bswap16_bswap16 _) hm, ?_⟩
  rw [arpOutcome, hq, if_neg (by decide), if_neg (by decide), if_neg htpa]
  refine ⟨⟨?_, ?_⟩, ?_⟩
  · rw [arpReplyFrame, hsend.offered, hl, count_offered]
  · rw [arpReplyFrame, hsend.sent, hl, count_sent]
  · rw [hoff.arpCache, hl, count_arpCache]
    exact arpCacheLookup_insert B.arpCache A.myIp A.myMac

theorem handle_reply (A B : Host) (eth : EthernetHeader) (arp : ArpPacket)
    (hsrc : eth.src = A.myMac) : ∃ A',
    netHandleFrame (received (arpReplyFrame B eth arp)) A = .ok A' ∧
      A'.offered = A.offered ∧ A'.sent = A.sent ∧ A'.myMac = A.myMac ∧ A'.myIp = A.myIp ∧
      A'.accepts = A.accepts ∧ (arpCacheLookup A'.arpCache B.myIp).1 = some B.myMac := by
  have hr : bswap16 (arpReplyPacket B arp).oper = arpOpReply := bswap16_bswap16 _
  have hl := learn_eq A (arpReplyPacket B arp) (arpLearns_reply B arp)
  have hm : macIsForMe A (arpReplyHeader B eth).dst = true := by
    simp [macIsForMe, arpReplyHeader, hsrc]
  refine ⟨_, netHandleFrame_arpFrame A _ _ (bswap16_bswap16 _) hm, ?_⟩
  rw [arpOutcome, hr, if_pos rfl, hl]
  exact ⟨rfl, rfl, rfl, rfl, rfl, arpCacheLookup_insert A.arpCache B.myIp B.myMac⟩

section Handshake
variable (A B : Host) (protocol : UInt8) (payload : Buffer) (n : Nat)

theorem first_send (hn : n ≤ 2014) (hmiss : (arpCacheLookup A.arpCache B.myIp).1 = none)
    (hA : Accepting A) : ∃ A', netSendIpv4 A B.myIp protocol payload n = .ok (false, A') ∧
      Transmits A A' (arpRequestFrame A B.myIp) ∧ A'.myMac = A.myMac ∧ A'.myIp = A.myIp ∧
      A'.accepts = A.accepts := by
  obtain ⟨cache,hc⟩ : ∃ cache, arpCacheLookup A.arpCache B.myIp = (none, cache) :=
    ⟨_, Prod.ext hmiss rfl⟩
  obtain ⟨-,ht⟩ := arpFrame_transmits { A with arpCache := cache } (arpRequestHeader A)
    (arpRequestPacket A B.myIp) [.arpTx] hA
  have hoff := offers_afterSend { A with arpCache := cache } (arpRequestFrame A B.myIp) [.arpTx]
  exact ⟨_, netSendIpv4_miss A B.myIp cache protocol payload n hn hc, ⟨ht.offered, ht.sent⟩,
    hoff.myMac, hoff.myIp, hoff.accepts⟩

theorem second_send (hp : n ≤ payload.size) (hn : n ≤ 2014)
    (hit : (arpCacheLookup A.arpCache B.myIp).1 = some B.myMac) (hA : Accepting A) : ∃ A',
    netSendIpv4 A B.myIp protocol payload n = .ok (true, A') ∧
      Transmits A A' (ipv4Frame A B.myMac B.myIp protocol (payload.slice 0 n)) := by
  obtain ⟨cache,hc⟩ : ∃ cache, arpCacheLookup A.arpCache B.myIp = (some B.myMac, cache) :=
    ⟨_, Prod.ext hit rfl⟩
  have hl := length_slice payload 0 n (by omega)
  have hlen := length_ipv4Frame A B.myMac B.myIp protocol (payload.slice 0 n)
  obtain ⟨h1,ht⟩ := afterSend_transmits { A with arpCache := cache }
    (ipv4Frame A B.myMac B.myIp protocol (payload.slice 0 n)) [.ipv4Tx] hA (by omega)
    (by rw [virtioNetMaxFrameSize]; omega)
  refine ⟨_, ?_, ⟨ht.offered, ht.sent⟩⟩
  rw [netSendIpv4_hit A B.myIp cache protocol payload n B.myMac hp hn hc, ← h1]

/-- From any caches in which `A` does not know `B`: request, reply, and the packet to
the MAC that was learnt. -/
theorem arp_handshake (hp : n ≤ payload.size) (hn : n ≤ 2014)
    (hmiss : (arpCacheLookup A.arpCache B.myIp).1 = none) (hA : Accepting A)
    (hB : Accepting B) : ∃ A1 B1 A2 A3 request reply,
    netSendIpv4 A B.myIp protocol payload n = .ok (false, A1) ∧ Transmits A A1 request ∧
      netHandleFrame (received request) B = .ok B1 ∧ Transmits B B1 reply ∧
      netHandleFrame (received reply) A1 = .ok A2 ∧ A2.offered = A1.offered ∧ A2.sent = A1.sent ∧
      (arpCacheLookup A2.arpCache B.myIp).1 = some B.myMac ∧
      (arpCacheLookup B1.arpCache A.myIp).1 = some A.myMac ∧
      netSendIpv4 A2 B.myIp protocol payload n = .ok (true, A3) ∧
      Transmits A2 A3 (ipv4Frame A B.myMac B.myIp protocol (payload.slice 0 n)) := by
  obtain ⟨A1,e1,t1,hmac,hip,hacc⟩ := first_send A B protocol payload n hn hmiss hA
  obtain ⟨B1,e2,t2,hlB⟩ := handle_request A B hB
  obtain ⟨A2,e3,ho,hs,hmac2,hip2,hacc2,hlA⟩ := handle_reply A1 B (arpRequestHeader A)
    (arpRequestPacket A B.myIp) hmac.symm
  have hA2 : Accepting A2 := by
    intro log frame
    rw [hacc2, hacc]
    exact hA log frame
  obtain ⟨A3,e4,t4⟩ := second_send A2 B protocol payload n hp hn hlA hA2
  have hframe : ipv4Frame A2 B.myMac B.myIp protocol (payload.slice 0 n) =
      ipv4Frame A B.myMac B.myIp protocol (payload.slice 0 n) := by
    simp only [ipv4Frame, ipv4FrameHeader, ipv4SendHeader, hmac2, hmac, hip2, hip]
  exact ⟨A1, B1, A2, A3, _, _, e1, t1, e2, t2, e3, ho, hs, hlA, hlB, e4, hframe ▸ t4⟩

end Handshake

/-- Two hosts after boot, with empty caches and a backend that takes everything. -/
theorem arp_handshake_boot : ∃ A1 B1 A2 A3 request reply,
    netSendIpv4 (Host.boot ⟨2, 0, 0, 0, 0, 1⟩ ⟨10, 0, 2, 1⟩ fun _ _ => true) defaultIp 17
        (received [1, 2, 3]) 3 = .ok (false, A1) ∧
      Transmits (Host.boot ⟨2, 0, 0, 0, 0, 1⟩ ⟨10, 0, 2, 1⟩ fun _ _ => true) A1 request ∧
      netHandleFrame (received request) (Host.boot defaultMac defaultIp fun _ _ => true) = .ok B1 ∧
      Transmits (Host.boot defaultMac defaultIp fun _ _ => true) B1 reply ∧
      netHandleFrame (received reply) A1 = .ok A2 ∧ A2.offered = A1.offered ∧ A2.sent = A1.sent ∧
      (arpCacheLookup A2.arpCache defaultIp).1 = some defaultMac ∧
      (arpCacheLookup B1.arpCache ⟨10, 0, 2, 1⟩).1 = some ⟨2, 0, 0, 0, 0, 1⟩ ∧
      netSendIpv4 A2 defaultIp 17 (received [1, 2, 3]) 3 = .ok (true, A3) ∧
      Transmits A2 A3 (ipv4Frame (Host.boot ⟨2, 0, 0, 0, 0, 1⟩ ⟨10, 0, 2, 1⟩ fun _ _ => true)
        defaultMac defaultIp 17 [1, 2, 3]) :=
  arp_handshake (Host.boot ⟨2, 0, 0, 0, 0, 1⟩ ⟨10, 0, 2, 1⟩ fun _ _ => true)
    (Host.boot defaultMac defaultIp fun _ _ => true) 17 (received [1, 2, 3]) 3 (by decide)
    (by decide) rfl (fun _ _ => rfl) (fun _ _ => rfl)

end NetKernel.Handshake
