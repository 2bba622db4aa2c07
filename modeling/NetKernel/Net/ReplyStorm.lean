import NetKernel.Net.ChatIntegrity
import NetKernel.Net.Replies

/-! No reply storms: a frame is answered by at most one frame, and that one by none. -/
namespace NetKernel.ReplyStorm
open Words Headers Buffers ArpCaches ChatQueue Hosts Receive RoundTrip Bounds ChatIntegrity
  Replies Runs

/-- Handled in silence by every host whose only UDP handler is the chat handler. -/
def Inert (g : Frame) : Prop :=
  ∀ h : Host, OnlyChat h.udpTable → ∃ h', netHandleFrame (received g) h = .ok h' ∧
    h'.offered = h.offered ∧ h'.sent = h.sent

theorem inert_of_no_request (g : Frame) (hecho : ∀ h, ¬ EchoRequest h (received g))
    (harp : bswap16 (ethernetAt (received g) 0).etherType = ethTypeArp → 42 ≤ (received g).size →
      bswap16 (arpAt (received g) 14).oper = arpOpReply) : Inert g := by
  intro h _
  obtain ⟨h',he⟩ := (netHandleFrame_inBounds (received g) h).mpr fun ho => hecho h ho.1
  refine ⟨h', he, ?_⟩
  cases netHandleFrame_cases he with
  | silent hs => exact ⟨hs.offered, hs.sent⟩
  | arp hsize hty ho =>
    obtain ⟨-,-,-,-,hoff,hsent⟩ := learn_fields h (arpAt (received g) 14)
    rw [ho, arpOutcome, if_pos (harp hty hsize)]
    exact ⟨hoff, hsent⟩
  | echo reply hreq => exact absurd hreq (hecho h)

theorem inert_arpReply (h : Host) (eth : EthernetHeader) (arp : ArpPacket) :
    Inert (arpReplyFrame h eth arp) := by
  have hty : bswap16 (ethernetAt (received (arpReplyFrame h eth arp)) 0).etherType = ethTypeArp := by
    rw [arpReplyFrame, received, ethernetAt_append]
    exact bswap16_bswap16 _
  refine inert_of_no_request _ (fun h' hreq => ?_) fun _ _ => ?_
  · exact absurd (hty.symm.trans hreq.etherType) (by decide)
  · rw [arpReplyFrame, received, arpAt_append]
    exact bswap16_bswap16 _

theorem inert_echoReply {f : Buffer} {h : Host} {reply : Frame} (hreq : EchoRequest h f)
    (hr : IsEchoReply h (ethernetAt f 0) (ipv4At f 14) reply) : Inert reply := by
  refine inert_of_no_request _ (fun h' hreq' => ?_) fun hty => ?_
  · obtain ⟨c,hip⟩ := hr.ipv4
    have htype := hreq'.type
    rw [hip] at htype
    exact absurd (hr.type.symm.trans htype) (by decide)
  · rw [hr.ethernet] at hty
    exact absurd (hreq.etherType.symm.trans hty) (by decide)

/-- The call transmits at most one frame, and an inert one. -/
def OneReply (h h' : Host) : Prop :=
  ∃ new : List Frame, h'.sent = h.sent ++ new ∧ new.length ≤ 1 ∧ ∀ g ∈ new, Inert g

theorem oneReply_nothing {h h' : Host} (hs : h'.sent = h.sent) : OneReply h h' :=
  ⟨[], by rw [hs, List.append_nil], by simp, by simp⟩

theorem Offers.oneReply {h h' : Host} {g : Frame} (ho : Offers h h' g) (hg : Inert g) :
    OneReply h h' := by
  cases ho.sent with
  | inl hs => exact oneReply_nothing hs
  | inr hs => exact ⟨[g], hs, le_refl 1, fun x hx => List.mem_singleton.mp hx ▸ hg⟩

theorem arpOutcome_oneReply (h : Host) (eth : EthernetHeader) (arp : ArpPacket) :
    OneReply h (arpOutcome h eth arp) := by
  obtain ⟨-,-,-,-,-,hsent⟩ := learn_fields h arp
  unfold arpOutcome
  split
  · exact oneReply_nothing hsent
  split
  · exact oneReply_nothing hsent
  split
  · exact oneReply_nothing hsent
  · obtain ⟨new,hn,hl,hi⟩ := Offers.oneReply (offers_afterSend ((learn h arp).count .arpRx)
      (arpReplyFrame h eth arp) [.arpTx]) (inert_arpReply h eth arp)
    exact ⟨new, by rw [hn, count_sent, hsent], hl, hi⟩

theorem netHandleFrame_oneReply {f : Buffer} {h h' : Host} (he : netHandleFrame f h = .ok h') :
    OneReply h h' := by
  cases netHandleFrame_cases he with
  | silent hs => exact oneReply_nothing hs.sent
  | arp _ _ ho => exact ho ▸ arpOutcome_oneReply h _ _
  | echo reply hreq hr ho => exact Offers.oneReply ho (inert_echoReply hreq hr)

theorem netHandleFrame_udpTable {f : Buffer} {h h' : Host} (he : netHandleFrame f h = .ok h') :
    h'.udpTable = h.udpTable := by
  cases netHandleFrame_cases he with
  | silent hs => exact hs.udpTable
  | arp _ _ ho =>
    obtain ⟨-,-,htab,-,-,-⟩ := learn_fields h (arpAt f 14)
    rw [ho, arpOutcome]
    split
    · exact htab
    split
    · exact htab
    split
    · exact htab
    · rw [(offers_afterSend _ _ _).udpTable, count_udpTable, htab]
  | echo reply _ _ ho => exact ho.udpTable

/-! Frames in flight. -/

section Flight
variable {ι : Type*} [DecidableEq ι]

/-- Hosts and the frames in flight between them, with the numbers of frames delivered and
transmitted so far. -/
structure Flight (ι : Type*) where
  host : ι → Host
  inFlight : List Frame
  delivered : Nat
  transmitted : Nat

/-- Any frame in flight is delivered, once, to any one host; what the host transmits is
in flight from then on. -/
inductive Deliver : Flight ι → Flight ι → Prop
  | deliver {n : Flight ι} {i : ι} {pre post new : List Frame} {f : Frame} {h : Host} :
      n.inFlight = pre ++ f :: post → netHandleFrame (received f) (n.host i) = .ok h →
      h.sent = (n.host i).sent ++ new →
      Deliver n ⟨Function.update n.host i h, pre ++ post ++ new, n.delivered+1,
        n.transmitted+new.length⟩

/-- Chat hosts, these frames in flight, and no further application sends. -/
def flightSystem (ι : Type*) [DecidableEq ι] (frames : List Frame) : System (Flight ι) where
  Init n := (∀ i, OnlyChat (n.host i).udpTable) ∧ n.inFlight = frames ∧ n.delivered = 0 ∧
    n.transmitted = 0
  Step := Deliver

/-- Each frame in flight may still cost two deliveries and one transmission, an inert one
a single delivery. -/
structure Paid (total : Nat) (n : Flight ι) : Prop where
  table : ∀ i, OnlyChat (n.host i).udpTable
  split : ∃ hot inert : List Frame, n.inFlight.Perm (hot ++ inert) ∧ (∀ g ∈ inert, Inert g) ∧
    n.transmitted+hot.length ≤ total ∧ n.delivered+2*hot.length+inert.length ≤ 2*total

theorem perm_split {pre post hot inert : List Frame} {f : Frame}
    (hp : (pre ++ f :: post).Perm (hot ++ inert)) :
    (∃ hot', hot.length = hot'.length+1 ∧ (pre ++ post).Perm (hot' ++ inert)) ∨
      f ∈ inert ∧ ∃ inert', inert.length = inert'.length+1 ∧ inert' ⊆ inert ∧
        (pre ++ post).Perm (hot ++ inert') := by
  have hcons : (f :: (pre ++ post)).Perm (hot ++ inert) :=
    List.perm_middle.symm.trans hp
  cases List.mem_append.mp (hcons.mem_iff.mp List.mem_cons_self) with
  | inl hf =>
    obtain ⟨a,b,rfl⟩ := List.append_of_mem hf
    refine Or.inl ⟨a ++ b, by simp only [List.length_append, List.length_cons]; omega, ?_⟩
    have hm : (a ++ f :: b ++ inert).Perm (f :: (a ++ b ++ inert)) := by
      rw [List.append_assoc, List.cons_append, List.append_assoc]
      exact List.perm_middle
    exact (hcons.trans hm).cons_inv
  | inr hf =>
    obtain ⟨a,b,rfl⟩ := List.append_of_mem hf
    refine Or.inr ⟨hf, a ++ b, by simp only [List.length_append, List.length_cons]; omega,
      fun g hg => ?_, ?_⟩
    · cases List.mem_append.mp hg with
      | inl ha => exact List.mem_append_left _ ha
      | inr hb => exact List.mem_append_right _ (List.mem_cons_of_mem _ hb)
    · have hm : (hot ++ (a ++ f :: b)).Perm (f :: (hot ++ (a ++ b))) := by
        rw [← List.append_assoc, ← List.append_assoc]
        exact List.perm_middle
      exact (hcons.trans hm).cons_inv

theorem Paid.step {total : Nat} {n n' : Flight ι} (hn : Paid total n) (hs : Deliver n n') :
    Paid total n' := by
  cases hs with
  | @deliver i pre post new f h hin he hsent =>
    have htab := netHandleFrame_udpTable he
    refine ⟨fun j => ?_, ?_⟩
    · by_cases hj : j = i
      · subst hj
        simp only [Function.update_self]
        rw [htab]
        exact hn.table j
      · simp only [Function.update_of_ne hj]
        exact hn.table j
    obtain ⟨hot,inert,hp,hinert,ht,hd⟩ := hn.split
    rw [hin] at hp
    obtain ⟨hot',hl,hp'⟩ | ⟨hf,inert',hl,hsub,hp'⟩ := perm_split hp
    · -- a frame that may be answered pays for its answer
      obtain ⟨new',hs',hl',hi'⟩ := netHandleFrame_oneReply he
      have hnew : new = new' := List.append_cancel_left (hsent.symm.trans hs')
      subst hnew
      refine ⟨hot', inert ++ new, ?_, fun g hg => ?_, ?_, ?_⟩
      · rw [← List.append_assoc]
        exact hp'.append_right new
      · cases List.mem_append.mp hg with
        | inl ha => exact hinert g ha
        | inr hb => exact hi' g hb
      · change n.transmitted+new.length+hot'.length ≤ total
        omega
      · rw [List.length_append]
        change n.delivered+1+2*hot'.length+(inert.length+new.length) ≤ 2*total
        omega
    · -- an inert frame is not answered
      obtain ⟨h2,he2,-,hs2⟩ := hinert f hf (n.host i) (hn.table i)
      rw [he] at he2
      cases he2
      have hnew : new = [] := by
        rw [hs2] at hsent
        exact List.append_cancel_left (hsent.symm.trans (List.append_nil _).symm)
      subst hnew
      refine ⟨hot, inert', ?_, fun g hg => hinert g (hsub hg), ht, ?_⟩
      · rw [List.append_nil]
        exact hp'
      · change n.delivered+1+2*hot.length+inert'.length ≤ 2*total
        omega

theorem paid_invariant (frames : List Frame) :
    (flightSystem ι frames).Invariant (Paid frames.length) where
  init := by
    rintro n ⟨ht,hin,hd,hx⟩
    refine ⟨ht, frames, [], ?_, by simp, by omega, ?_⟩
    · rw [hin, List.append_nil]
    · rw [List.length_nil]
      omega
  step _ _ hn hs := hn.step hs

/-- A frame is answered by at most one frame, which no host answers; so whatever the order
of delivery, the frames in flight cause no more transmissions than their number, and
everything is delivered after twice that many deliveries. -/
theorem no_reply_storm :
    (∀ (h h' : Host) (f : Frame), OnlyChat h.udpTable →
      netHandleFrame (received f) h = .ok h' → ∃ new : List Frame, h'.sent = h.sent ++ new ∧
        new.length ≤ 1 ∧ ∀ g ∈ new, ∀ k : Host, OnlyChat k.udpTable →
          ∃ k', netHandleFrame (received g) k = .ok k' ∧ k'.offered = k.offered ∧
            k'.sent = k.sent) ∧
    ∀ (frames : List Frame) (n : Flight ι), (flightSystem ι frames).Reachable n →
      n.transmitted ≤ frames.length ∧ n.delivered+n.inFlight.length ≤ 2*frames.length := by
  refine ⟨fun h h' f _ he => netHandleFrame_oneReply he, fun frames n hr => ?_⟩
  obtain ⟨hot,inert,hp,-,ht,hd⟩ := ((paid_invariant frames).reachable hr).split
  have hl := hp.length_eq
  rw [List.length_append] at hl
  omega

end Flight

def chatHost : Host :=
  { Host.boot defaultMac defaultIp fun _ _ => true with
    udpTable := (udpRegisterHandler udpClearHandlers netChatPort (some .chatUdpHandler)).2 }

def chatRequest : Frame := arpRequestFrame (Host.boot ⟨2, 0, 0, 0, 0, 1⟩ ⟨10, 0, 2, 1⟩
  fun _ _ => true) defaultIp

theorem chatHost_table : OnlyChat chatHost.udpTable := by
  have hclear : OnlyChat udpClearHandlers := fun e he =>
    Or.inl (List.eq_of_mem_replicate he ▸ rfl)
  exact hclear.register _

theorem no_reply_storm_request : (∃ h' new, netHandleFrame (received chatRequest) chatHost = .ok h' ∧
      h'.sent = chatHost.sent ++ new ∧ new.length ≤ 1 ∧ ∀ g ∈ new, ∃ k',
        netHandleFrame (received g) chatHost = .ok k' ∧ k'.offered = chatHost.offered ∧
          k'.sent = chatHost.sent) ∧
    ∀ n : Flight Unit, (flightSystem Unit [chatRequest]).Reachable n →
      n.transmitted ≤ 1 ∧ n.delivered+n.inFlight.length ≤ 2 := by
  obtain ⟨hone,hall⟩ := @no_reply_storm Unit _
  have hb : InBounds (netHandleFrame (received chatRequest) chatHost) :=
    (netHandleFrame_inBounds _ _).mpr fun ho => absurd ho.1.etherType (by decide)
  obtain ⟨h',he⟩ := hb
  obtain ⟨new,hs,hl,hi⟩ := hone chatHost h' chatRequest chatHost_table he
  exact ⟨⟨h', new, he, hs, hl, fun g hg => hi g hg chatHost chatHost_table⟩, hall [chatRequest]⟩

end NetKernel.ReplyStorm
