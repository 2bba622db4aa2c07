import NetKernel.Net.EchoReply

/-! Which frames an ARP reply answers and which touch the cache, exactly. -/
namespace NetKernel.ArpExact
open Words Headers Buffers ArpCaches Hosts Receive RoundTrip Bounds Replies EchoReply

/-- An ARP packet that `handle_arp` looks at. -/
structure ArpForMe (h : Host) (f : Buffer) : Prop where
  size : 42 ≤ f.size
  forMe : macIsForMe h (ethernetAt f 0).dst = true
  etherType : bswap16 (ethernetAt f 0).etherType = ethTypeArp

structure EthernetIpv4 (arp : ArpPacket) : Prop where
  htype : bswap16 arp.htype = arpHtypeEthernet
  ptype : bswap16 arp.ptype = arpPtypeIpv4
  hlen : arp.hlen = 6
  plen : arp.plen = 4

structure AsksForMe (h : Host) (arp : ArpPacket) : Prop where
  oper : bswap16 arp.oper = arpOpRequest
  tpa : arp.tpa = h.myIp

def isArpReply (g : Frame) : Prop :=
  bswap16 (ethernetAt (received g) 0).etherType = ethTypeArp ∧
    bswap16 (arpAt (received g) 14).oper = arpOpReply

def Answerable (h : Host) (f : Buffer) : Prop :=
  ArpForMe h f ∧ EthernetIpv4 (arpAt f 14) ∧ AsksForMe h (arpAt f 14)

def Learnable (h : Host) (f : Buffer) : Prop :=
  ArpForMe h f ∧ EthernetIpv4 (arpAt f 14)

/-- A reply goes out exactly for an answerable frame, and is then the one built from it;
the cache learns exactly from a learnable one. -/
structure Exact (h : Host) (f : Buffer) (h' : Host) : Prop where
  replies : (∃ g, h'.offered = h.offered ++ [g] ∧ isArpReply g) ↔ Answerable h f
  reply : Answerable h f →
    h'.offered = h.offered ++ [arpReplyFrame h (ethernetAt f 0) (arpAt f 14)] ∧
    h'.sent = if h.accepts h.offered (arpReplyFrame h (ethernetAt f 0) (arpAt f 14)) then
      h.sent ++ [arpReplyFrame h (ethernetAt f 0) (arpAt f 14)] else h.sent
  learns : Learnable h f →
    h'.arpCache = arpCacheInsert h.arpCache (arpAt f 14).spa (arpAt f 14).sha
  keeps : ¬ Learnable h f → h'.arpCache = h.arpCache

/-- The handling of one frame is exact; an ARP frame is handled without a fault. -/
def HandledExactly (h : Host) (f : Buffer) : Prop :=
  (bswap16 (ethernetAt f 0).etherType = ethTypeArp → InBounds (netHandleFrame f h)) ∧
    ∀ h', netHandleFrame f h = .ok h' → Exact h f h'

theorem arpLearns_iff (arp : ArpPacket) : arpLearns arp = true ↔ EthernetIpv4 arp := by
  simp only [arpLearns, Bool.and_eq_true, beq_iff_eq]
  constructor
  · rintro ⟨⟨⟨hh,hp⟩,ht⟩,hy⟩
    exact ⟨ht, hy, hh, hp⟩
  · intro he
    exact ⟨⟨⟨he.hlen, he.plen⟩, he.htype⟩, he.ptype⟩

theorem length_arpReplyFrame (h : Host) (eth : EthernetHeader) (arp : ArpPacket) :
    (arpReplyFrame h eth arp).length = 42 := by
  rw [arpReplyFrame, List.length_append, EthernetHeader.length_bytes, ArpPacket.length_bytes]

theorem isArpReply_arpReplyFrame (h : Host) (eth : EthernetHeader) (arp : ArpPacket) :
    isArpReply (arpReplyFrame h eth arp) := by
  constructor
  · rw [arpReplyFrame, received, ethernetAt_append]
    exact bswap16_bswap16 _
  · rw [arpReplyFrame, received, arpAt_append]
    exact bswap16_bswap16 _

section Handle
variable {h h' : Host} {f : Buffer}

theorem netHandleFrame_arp (ha : ArpForMe h f) :
    netHandleFrame f h = .ok (arpOutcome h (ethernetAt f 0) (arpAt f 14)) := by
  have hs := ha.size
  simp only [netHandleFrame, sizeofEthernetHeader]
  rw [if_neg (by omega), EthernetHeader.read_ok f 0 (by omega), ok_bind, ha.forMe,
    if_neg (by decide), if_pos ha.etherType, handleArp_eq f h hs]

theorem netHandleFrame_other (hn : ¬ ArpForMe h f) (he : netHandleFrame f h = .ok h') :
    h'.arpCache = h.arpCache ∧ ∀ g, h'.offered = h.offered ++ [g] → ¬ isArpReply g := by
  have hsilent {k : Host} (hk : Silent h k) :
      k.arpCache = h.arpCache ∧ ∀ g, k.offered = h.offered ++ [g] → ¬ isArpReply g := by
    refine ⟨hk.arpCache, fun g hg => ?_⟩
    rw [hk.offered] at hg
    simp at hg
  cases netHandleFrame_cases he with
  | silent hs => exact hsilent hs
  | arp hs ht ho =>
    have hm : macIsForMe h (ethernetAt f 0).dst = false := by
      cases hm : macIsForMe h (ethernetAt f 0).dst with
      | false => rfl
      | true => exact absurd ⟨hs, hm, ht⟩ hn
    simp only [netHandleFrame, sizeofEthernetHeader] at he
    rw [if_neg (by omega), EthernetHeader.read_ok f 0 (by omega), ok_bind, if_pos hm] at he
    cases he
    exact hsilent (.count h _)
  | echo reply hr hi ho =>
    refine ⟨ho.arpCache, fun g hg hy => ?_⟩
    rw [ho.offered] at hg
    obtain rfl : reply = g := by simpa using hg
    have hty : bswap16 (ethernetAt f 0).etherType = ethTypeArp := by
      rw [← hy.1, hi.ethernet]
      rfl
    rw [hr.etherType] at hty
    exact absurd hty (by decide)

/-- What `handle_arp` leaves behind: the learned binding, and a reply to what asks for this
host whether it is well formed or not. -/
theorem arpOutcome_exact (h : Host) (eth : EthernetHeader) (arp : ArpPacket) :
    (arpOutcome h eth arp).arpCache = (learn h arp).arpCache ∧
    (AsksForMe h arp → (arpOutcome h eth arp).offered = h.offered ++ [arpReplyFrame h eth arp] ∧
      (arpOutcome h eth arp).sent = if h.accepts h.offered (arpReplyFrame h eth arp) then
        h.sent ++ [arpReplyFrame h eth arp] else h.sent) ∧
    (¬ AsksForMe h arp → (arpOutcome h eth arp).offered = h.offered) := by
  obtain ⟨-,-,-,hacc,hoff,hsent⟩ := learn_fields h arp
  unfold arpOutcome
  by_cases hr : bswap16 arp.oper = arpOpReply
  · rw [if_pos hr]
    refine ⟨rfl, fun ha => ?_, fun _ => hoff⟩
    have := ha.oper.symm.trans hr
    exact absurd this (by decide)
  rw [if_neg hr]
  by_cases hq : bswap16 arp.oper ≠ arpOpRequest
  · rw [if_pos hq]
    exact ⟨rfl, fun ha => absurd ha.oper hq, fun _ => hoff⟩
  rw [if_neg hq]
  by_cases ht : arp.tpa ≠ h.myIp
  · rw [if_pos ht]
    exact ⟨rfl, fun ha => absurd ha.tpa ht, fun _ => hoff⟩
  rw [if_neg ht]
  have ho := offers_afterSend ((learn h arp).count .arpRx) (arpReplyFrame h eth arp) [.arpTx]
  refine ⟨ho.arpCache, fun _ => ⟨?_, ?_⟩, fun hn => absurd ⟨not_not.mp hq, not_not.mp ht⟩ hn⟩
  · rw [ho.offered, count_offered, hoff]
  · have hlen := length_arpReplyFrame h eth arp
    rw [afterSend_sent, afterSend_legal _ _ _ (by omega)
      (by simp only [virtioNetMaxFrameSize]; omega)]
    simp only [count_accepts, count_offered, count_sent, hacc, hoff, hsent]

/-- A request for this host whose hardware or protocol is not Ethernet and IPv4. -/
def MalformedRequest (h : Host) (f : Buffer) : Prop :=
  ArpForMe h f ∧ AsksForMe h (arpAt f 14) ∧ ¬ EthernetIpv4 (arpAt f 14)

theorem not_handledExactly_malformed (hm : MalformedRequest h f) : ¬ HandledExactly h f := by
  intro hex
  obtain ⟨hf,hask,hn⟩ := hm
  have hrep := (hex.2 _ (netHandleFrame_arp hf)).replies.mp
    ⟨_, ((arpOutcome_exact h _ _).2.1 hask).1, isArpReply_arpReplyFrame h _ _⟩
  exact hn hrep.2.1

theorem handledExactly_of_wellFormed (hm : ¬ MalformedRequest h f) : HandledExactly h f := by
  refine ⟨fun ht => (netHandleFrame_inBounds f h).mpr fun ho => ?_, fun h' he => ?_⟩
  · exact absurd (ht.symm.trans ho.1.etherType) (by decide)
  by_cases hf : ArpForMe h f
  swap
  · obtain ⟨hcache,hno⟩ := netHandleFrame_other hf he
    exact ⟨⟨fun ⟨g,hg,hy⟩ => absurd hy (hno g hg), fun ha => absurd ha.1 hf⟩,
      fun ha => absurd ha.1 hf, fun hl => absurd hl.1 hf, fun _ => hcache⟩
  rw [netHandleFrame_arp hf] at he
  cases he
  obtain ⟨hcache,hyes,hno⟩ := arpOutcome_exact h (ethernetAt f 0) (arpAt f 14)
  refine ⟨⟨fun ⟨g,hg,_⟩ => ?_, fun ha => ⟨_, (hyes ha.2.2).1, isArpReply_arpReplyFrame h _ _⟩⟩,
    fun ha => hyes ha.2.2, fun hl => ?_, fun hl => ?_⟩
  · have hask : AsksForMe h (arpAt f 14) := by
      by_contra hask
      rw [hno hask] at hg
      simp at hg
    refine ⟨hf, ?_, hask⟩
    by_contra hw
    exact hm ⟨hf, hask, hw⟩
  · rw [hcache, learn, if_pos ((arpLearns_iff _).mpr hl.2)]
  · rw [hcache, learn, if_neg fun hw => hl ⟨hf, (arpLearns_iff _).mp hw⟩]

end Handle

/-- A request for the default address that claims hardware addresses of no bytes. -/
def malformedRequest : Frame :=
  EthernetHeader.bytes ⟨Mac.broadcast, ⟨2, 0, 0, 0, 0, 1⟩, bswap16 ethTypeArp⟩ ++
    ArpPacket.bytes ⟨bswap16 arpHtypeEthernet, bswap16 arpPtypeIpv4, 0, 4, bswap16 arpOpRequest,
      ⟨2, 0, 0, 0, 0, 1⟩, ⟨10, 0, 2, 2⟩, Mac.zero, defaultIp⟩

end NetKernel.ArpExact
