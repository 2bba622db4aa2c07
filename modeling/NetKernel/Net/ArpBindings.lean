import NetKernel.Lib.Runs
import NetKernel.Net.Handshake

/-! ARP caches over an unreliable link: hosts that run this code never learn a binding
that is not the identity of one of them. -/
namespace NetKernel.ArpBindings
open Words OnesComplement Headers Buffers ArpCaches ChatQueue Hosts Receive Send RoundTrip
  Bounds Replies Handshake Runs

/-- An ARP frame, if it is one, announces an allowed binding. -/
def Truthful (P : Ip → Mac → Prop) (f : Frame) : Prop :=
  bswap16 (ethernetAt (received f) 0).etherType = ethTypeArp → 42 ≤ f.length →
    P (arpAt (received f) 14).spa (arpAt (received f) 14).sha

/-- The call keeps the identity, an allowed cache allowed, and sends truthful frames. -/
structure Keeps (P : Ip → Mac → Prop) (h h' : Host) : Prop where
  myMac : h'.myMac = h.myMac
  myIp : h'.myIp = h.myIp
  cache : Holds P h.arpCache → Holds P h'.arpCache
  sent : ∀ f ∈ h'.sent, f ∈ h.sent ∨ Truthful P f

variable {P : Ip → Mac → Prop} {h h' : Host}

theorem Keeps.trans {a b c : Host} (h : Keeps P a b) (k : Keeps P b c) : Keeps P a c := by
  refine ⟨k.myMac.trans h.myMac, k.myIp.trans h.myIp, fun hc => k.cache (h.cache hc),
    fun f hf => ?_⟩
  cases k.sent f hf with
  | inl hb => exact h.sent f hb
  | inr hp => exact Or.inr hp

theorem Keeps.of_silent (hs : Silent h h') : Keeps P h h' := by
  refine ⟨hs.myMac, hs.myIp, fun hc => hs.arpCache ▸ hc, fun f hf => Or.inl ?_⟩
  rw [← hs.sent]
  exact hf

theorem Keeps.of_offers {g : Frame} (ho : Offers h h' g) (hg : Truthful P g) :
    Keeps P h h' := by
  refine ⟨ho.myMac, ho.myIp, fun hc => ho.arpCache ▸ hc, fun f hf => ?_⟩
  cases ho.sent with
  | inl hs =>
    rw [hs] at hf
    exact Or.inl hf
  | inr hs =>
    rw [hs] at hf
    cases List.mem_append.mp hf with
    | inl hold => exact Or.inl hold
    | inr hnew => exact Or.inr (List.mem_singleton.mp hnew ▸ hg)

theorem keeps_lookup (h : Host) (ip : Ip) :
    Keeps P h { h with arpCache := (arpCacheLookup h.arpCache ip).2 } :=
  ⟨rfl, rfl, fun hc => hc.lookup ip, fun _ hf => Or.inl hf⟩

theorem truthful_arpFrame (e : EthernetHeader) (a : ArpPacket) (hp : P a.spa a.sha) :
    Truthful P (e.bytes ++ a.bytes) := by
  intro _ _
  rw [received, arpAt_append]
  exact hp

theorem truthful_of_etherType {f : Frame}
    (ht : bswap16 (ethernetAt (received f) 0).etherType = ethTypeIpv4) : Truthful P f :=
  fun ha _ => absurd (ha.symm.trans ht) (by decide)

/-! The calls. -/

theorem netSendArpRequest_keeps {targetIp : Ip} {b : Bool} (hp : P h.myIp h.myMac)
    (he : netSendArpRequest h targetIp = .ok (b, h')) : Keeps P h h' := by
  rw [netSendArpRequest_eq] at he
  cases he
  exact .of_offers (offers_afterSend h (arpRequestFrame h targetIp) [.arpTx])
    (truthful_arpFrame _ _ hp)

theorem readBytes_le {b : Buffer} {n : Nat} {xs : List UInt8}
    (h : readBytes b 0 n = .ok xs) : n ≤ b.size := by
  have hgen : ∀ (n off : Nat) (xs : List UInt8), readBytes b off n = .ok xs →
      n = 0 ∨ off+n ≤ b.size := by
    intro n
    induction n with
    | zero => exact fun _ _ _ => Or.inl rfl
    | succ n ih =>
      intro off xs hr
      obtain ⟨x,hx,hr⟩ := bind_eq_ok hr
      obtain ⟨ys,hy,-⟩ := bind_eq_ok hr
      have hoff : off < b.size := by
        by_contra hge
        rw [read_fault b off (by omega)] at hx
        cases hx
      cases ih (off+1) ys hy with
      | inl h0 => omega
      | inr hle => omega
  cases hgen n 0 xs h with
  | inl h0 => omega
  | inr hle => omega

theorem netSendIpv4_cases {dstIp : Ip} {protocol : UInt8} {payload : Buffer} {n : Nat} {b : Bool}
    (he : netSendIpv4 h dstIp protocol payload n = .ok (b, h')) :
    b = false ∧ h' = h ∨
    (∃ cache, arpCacheLookup h.arpCache dstIp = (none, cache) ∧ b = false ∧
      h' = (afterSend { h with arpCache := cache } (arpRequestFrame h dstIp) [.arpTx]).2) ∨
    ∃ dstMac cache, arpCacheLookup h.arpCache dstIp = (some dstMac, cache) ∧
      (b, h') = afterSend { h with arpCache := cache }
        (ipv4Frame h dstMac dstIp protocol (payload.slice 0 n)) [.ipv4Tx] := by
  by_cases hbig : virtioNetMaxFrameSize < n ∨
      virtioNetMaxFrameSize < sizeofEthernetHeader+(sizeofIpv4Header+n) ∨
      0xffff < sizeofIpv4Header+n
  · rw [netSendIpv4, if_pos hbig] at he
    cases he
    exact Or.inl ⟨rfl, rfl⟩
  have hn : n ≤ 2014 := by
    simp only [virtioNetMaxFrameSize, sizeofEthernetHeader, sizeofIpv4Header] at hbig
    omega
  cases hl : arpCacheLookup h.arpCache dstIp with
  | mk hit cache =>
    cases hit with
    | none =>
      rw [netSendIpv4_miss h dstIp cache protocol payload n hn hl] at he
      cases he
      exact Or.inr (Or.inl ⟨cache, rfl, rfl, rfl⟩)
    | some dstMac =>
      have hp : n ≤ payload.size := by
        rw [netSendIpv4, if_neg hbig, hl] at he
        obtain ⟨frame,hf,-⟩ := bind_eq_ok he
        obtain ⟨b1,-,hf⟩ := bind_eq_ok hf
        obtain ⟨b2,-,hf⟩ := bind_eq_ok hf
        obtain ⟨data,hd,-⟩ := bind_eq_ok hf
        exact readBytes_le hd
      rw [netSendIpv4_hit h dstIp cache protocol payload n dstMac hp hn hl] at he
      exact Or.inr (Or.inr ⟨dstMac, cache, rfl, (Except.ok.inj he).symm⟩)

theorem ethernetAt_ipv4Frame (h : Host) (dstMac : Mac) (dstIp : Ip) (protocol : UInt8)
    (data : List UInt8) : ethernetAt (received (ipv4Frame h dstMac dstIp protocol data)) 0 =
      ipv4FrameHeader h dstMac := by
  rw [ipv4Frame, received, ethernetAt_append]

theorem netSendIpv4_keeps {dstIp : Ip} {protocol : UInt8} {payload : Buffer} {n : Nat} {b : Bool}
    (hp : P h.myIp h.myMac) (he : netSendIpv4 h dstIp protocol payload n = .ok (b, h')) :
    Keeps P h h' := by
  have hk := keeps_lookup (P := P) h dstIp
  obtain ⟨-,rfl⟩ | ⟨cache,hl,-,rfl⟩ | ⟨dstMac,cache,hl,hs⟩ := netSendIpv4_cases he
  · exact .of_silent (.refl _)
  · rw [hl] at hk
    exact hk.trans (.of_offers (offers_afterSend { h with arpCache := cache }
      (arpRequestFrame h dstIp) [.arpTx]) (truthful_arpFrame _ _ hp))
  · rw [hl] at hk
    have ho := offers_afterSend { h with arpCache := cache }
      (ipv4Frame h dstMac dstIp protocol (payload.slice 0 n)) [.ipv4Tx]
    rw [← hs] at ho
    refine hk.trans (.of_offers ho (truthful_of_etherType ?_))
    rw [ethernetAt_ipv4Frame]
    exact bswap16_bswap16 _

theorem udpSendTo_keeps {dstIp : Ip} {srcPort dstPort : UInt16} {payload : List UInt8} {b : Bool}
    (hp : P h.myIp h.myMac) (he : udpSendTo h dstIp srcPort dstPort payload = .ok (b, h')) :
    Keeps P h h' := by
  unfold udpSendTo at he
  split at he
  · cases he
    exact .of_silent (.refl _)
  split at he
  · cases he
    exact .of_silent (.refl _)
  obtain ⟨b1,-,he⟩ := bind_eq_ok he
  obtain ⟨b2,-,he⟩ := bind_eq_ok he
  obtain ⟨⟨sent,h1⟩,hs,he⟩ := bind_eq_ok he
  cases he
  refine (netSendIpv4_keeps hp hs).trans ?_
  split
  · exact .of_silent (.count h1 .udpTx)
  · exact .of_silent (.refl h1)

theorem learn_keeps (h : Host) (arp : ArpPacket) (hp : P arp.spa arp.sha) :
    Keeps P h (learn h arp) := by
  unfold learn
  split
  · exact ⟨rfl, rfl, fun hc => hc.insert hp, fun _ hf => Or.inl hf⟩
  · exact .of_silent (.refl h)

theorem netHandleFrame_keeps {f : Frame} (hp : P h.myIp h.myMac) (hf : Truthful P f)
    (he : netHandleFrame (received f) h = .ok h') : Keeps P h h' := by
  cases netHandleFrame_cases he with
  | silent hs => exact .of_silent hs
  | arp hsize ht ho =>
    have hl := learn_keeps h (arpAt (received f) 14) (hf ht hsize)
    subst ho
    unfold arpOutcome
    split
    · exact hl.trans (.of_silent (.count _ _))
    split
    · exact hl
    split
    · exact hl.trans (.of_silent (.count _ _))
    · exact (hl.trans (.of_silent (.count _ _))).trans (.of_offers (offers_afterSend _ _ _)
        (truthful_arpFrame _ _ hp))
  | echo reply hreq hr ho =>
    refine .of_offers ho (truthful_of_etherType ?_)
    rw [hr.ethernet]
    exact hreq.etherType

/-! The network. -/

section Network
variable {ι : Type*} [DecidableEq ι]

/-- Calls in any order; a host receives any frame that some host has sent so far: lost,
repeated, reordered or delivered elsewhere. -/
inductive BindingStep : (ι → Host) → (ι → Host) → Prop
  | arpRequest {n : ι → Host} {i : ι} {targetIp : Ip} {b : Bool} {h : Host} :
      netSendArpRequest (n i) targetIp = .ok (b, h) → BindingStep n (Function.update n i h)
  | sendIpv4 {n : ι → Host} {i : ι} {dstIp : Ip} {protocol : UInt8} {payload : Buffer} {k : Nat}
      {b : Bool} {h : Host} :
      netSendIpv4 (n i) dstIp protocol payload k = .ok (b, h) →
      BindingStep n (Function.update n i h)
  | sendUdp {n : ι → Host} {i : ι} {dstIp : Ip} {srcPort dstPort : UInt16}
      {payload : List UInt8} {b : Bool} {h : Host} :
      udpSendTo (n i) dstIp srcPort dstPort payload = .ok (b, h) →
      BindingStep n (Function.update n i h)
  | receive {n : ι → Host} {i j : ι} {f : Frame} {h : Host} :
      f ∈ (n j).sent → netHandleFrame (received f) (n i) = .ok h →
      BindingStep n (Function.update n i h)

/-- Hosts with distinct, fixed identities, empty caches and nothing in flight. -/
def bindingSystem (ι : Type*) [DecidableEq ι] : System (ι → Host) where
  Init n := (Function.Injective fun i => (n i).myMac) ∧
    (Function.Injective fun i => (n i).myIp) ∧
    ∀ i, (n i).arpCache = arpCacheReset ∧ (n i).sent = []
  Step := BindingStep

def IsIdentity (n : ι → Host) (ip : Ip) (mac : Mac) : Prop :=
  ∃ j, (n j).myIp = ip ∧ (n j).myMac = mac

structure TrueBindings (n : ι → Host) : Prop where
  cache : ∀ i, Holds (IsIdentity n) (n i).arpCache
  sent : ∀ i, ∀ f ∈ (n i).sent, Truthful (IsIdentity n) f

theorem isIdentity_update {n : ι → Host} {i : ι} {h : Host} (hmac : h.myMac = (n i).myMac)
    (hip : h.myIp = (n i).myIp) : IsIdentity (Function.update n i h) = IsIdentity n := by
  have hj (j : ι) : (Function.update n i h j).myIp = (n j).myIp ∧
      (Function.update n i h j).myMac = (n j).myMac := by
    by_cases hj : j = i
    · subst hj
      rw [Function.update_self]
      exact ⟨hip, hmac⟩
    · rw [Function.update_of_ne hj]
      exact ⟨rfl, rfl⟩
  funext ip mac
  simp only [IsIdentity, (hj _).1, (hj _).2]

theorem TrueBindings.update {n : ι → Host} (hn : TrueBindings n) {i : ι} {h : Host}
    (hk : Keeps (IsIdentity n) (n i) h) : TrueBindings (Function.update n i h) := by
  constructor
  · intro j
    rw [isIdentity_update hk.myMac hk.myIp]
    by_cases hj : j = i
    · subst hj
      rw [Function.update_self]
      exact hk.cache (hn.cache j)
    · rw [Function.update_of_ne hj]
      exact hn.cache j
  · intro j f hf
    rw [isIdentity_update hk.myMac hk.myIp]
    by_cases hj : j = i
    · subst hj
      rw [Function.update_self] at hf
      cases hk.sent f hf with
      | inl hold => exact hn.sent j f hold
      | inr hnew => exact hnew
    · rw [Function.update_of_ne hj] at hf
      exact hn.sent j f hf

theorem TrueBindings.step {n n' : ι → Host} (hn : TrueBindings n) (hs : BindingStep n n') :
    TrueBindings n' := by
  have hp (i : ι) : IsIdentity n (n i).myIp (n i).myMac := ⟨i, rfl, rfl⟩
  cases hs with
  | @arpRequest i _ _ _ he => exact hn.update (netSendArpRequest_keeps (hp i) he)
  | @sendIpv4 i _ _ _ _ _ _ he => exact hn.update (netSendIpv4_keeps (hp i) he)
  | @sendUdp i _ _ _ _ _ _ he => exact hn.update (udpSendTo_keeps (hp i) he)
  | @receive i j f _ hf he => exact hn.update (netHandleFrame_keeps (hp i) (hn.sent j f hf) he)

theorem trueBindings_invariant : (bindingSystem ι).Invariant TrueBindings where
  init := by
    rintro n ⟨-,-,h0⟩
    refine ⟨fun i => ?_, fun i f hf => ?_⟩
    · rw [(h0 i).1]
      exact holds_reset
    · rw [(h0 i).2] at hf
      cases hf
  step _ _ hn hs := hn.step hs

/-- Every entry of every cache is the identity of a host, so what `net_send_ipv4` transmits
goes to the MAC of the host that owns the destination address. -/
theorem caches_true (n : ι → Host) (hr : (bindingSystem ι).Reachable n) :
    (∀ i, ∀ e ∈ (n i).arpCache.entries, e.valid = true →
      ∃ j, (n j).myIp = e.ip ∧ (n j).myMac = e.mac) ∧
    ∀ (i : ι) (dstIp : Ip) (protocol : UInt8) (payload : Buffer) (k : Nat) (h : Host),
      netSendIpv4 (n i) dstIp protocol payload k = .ok (true, h) →
        ∃ j frame, h.sent = (n i).sent ++ [frame] ∧ (n j).myIp = dstIp ∧
          (ethernetAt (received frame) 0).dst = (n j).myMac ∧
          (ipv4At (received frame) 14).dstIp = dstIp := by
  have hn := trueBindings_invariant.reachable hr
  refine ⟨fun i e he hv => hn.cache i e he hv, fun i dstIp protocol payload k h he => ?_⟩
  obtain ⟨hb,-⟩ | ⟨cache,-,hb,-⟩ | ⟨dstMac,cache,hl,hs⟩ := netSendIpv4_cases he
  · cases hb
  · cases hb
  · obtain ⟨j,hip,hmac⟩ := (hn.cache i).hit hl
    refine ⟨j, ipv4Frame (n i) dstMac dstIp protocol (payload.slice 0 k), ?_, hip, ?_, ?_⟩
    · have hsent := afterSend_sent { n i with arpCache := cache }
        (ipv4Frame (n i) dstMac dstIp protocol (payload.slice 0 k)) [.ipv4Tx]
      rw [← hs, if_pos rfl] at hsent
      exact hsent
    · rw [ethernetAt_ipv4Frame, hmac]
      rfl
    · rw [ipv4Frame, received, ipv4At_append .received _ _ _ 14 (EthernetHeader.length_bytes _).symm]
      rfl

end Network

/-! A request of one host, heard by the other. -/

def pairHosts : Bool → Host
  | false => Host.boot defaultMac defaultIp fun _ _ => true
  | true => Host.boot ⟨2, 0, 0, 0, 0, 1⟩ ⟨10, 0, 2, 1⟩ fun _ _ => true

theorem pairHosts_init : (bindingSystem Bool).Init pairHosts := by
  refine ⟨?_, ?_, fun i => ?_⟩
  · intro i j; revert i j; decide
  · intro i j; revert i j; decide
  · cases i <;> exact ⟨rfl, rfl⟩

theorem pairHosts_heard : ∃ n : Bool → Host, (bindingSystem Bool).Reachable n ∧
    (arpCacheLookup (n false).arpCache ⟨10, 0, 2, 1⟩).1 = some ⟨2, 0, 0, 0, 0, 1⟩ := by
  obtain ⟨b,A,hA,hs⟩ : ∃ b A, netSendArpRequest (pairHosts true) defaultIp = .ok (b, A) ∧
      arpRequestFrame (pairHosts true) defaultIp ∈ A.sent := by
    obtain ⟨-,ht⟩ := arpFrame_transmits (pairHosts true) (arpRequestHeader (pairHosts true))
      (arpRequestPacket (pairHosts true) defaultIp) [.arpTx] fun _ _ => rfl
    exact ⟨_, _, netSendArpRequest_eq _ _,
      ht.sent ▸ List.mem_append_right _ List.mem_cons_self⟩
  obtain ⟨B,hB,-,hl⟩ := handle_request (pairHosts true) (pairHosts false) fun _ _ => rfl
  have s1 := (System.Reachable.init pairHosts_init).step (.arpRequest (i := true) hA)
  have s2 := s1.step (.receive (i := false) (j := true)
    (show _ ∈ (Function.update pairHosts true A true).sent by rw [Function.update_self]; exact hs)
    (show netHandleFrame _ (Function.update pairHosts true A false) = _ by
      rw [Function.update_of_ne (by decide)]; exact hB))
  exact ⟨_, s2, by rw [Function.update_self]; exact hl⟩

theorem caches_true_pair : ∃ n : Bool → Host, (bindingSystem Bool).Reachable n ∧
    (arpCacheLookup (n false).arpCache ⟨10, 0, 2, 1⟩).1 = some ⟨2, 0, 0, 0, 0, 1⟩ ∧
    ∀ i, ∀ e ∈ (n i).arpCache.entries, e.valid = true →
      ∃ j, (n j).myIp = e.ip ∧ (n j).myMac = e.mac := by
  obtain ⟨n,hr,hl⟩ := pairHosts_heard
  exact ⟨n, hr, hl, (caches_true n hr).1⟩

end NetKernel.ArpBindings
