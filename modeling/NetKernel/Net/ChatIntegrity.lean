import NetKernel.Lib.Runs
import NetKernel.Net.RoundTrip
import NetKernel.Net.Bounds

/-! Chat over an unreliable link. Any frame a host has sent may reach any host any
number of times and in any order; every stored message is still one that was sent. -/
namespace NetKernel.ChatIntegrity
open Words Headers Buffers ArpCaches ChatQueue Hosts Receive Send RoundTrip Bounds Runs

/-! What one call does to the receiver's state and to the frames sent. -/

def IsArp (f : Frame) : Prop := bswap16 (ethernetAt (received f) 0).etherType = ethTypeArp

/-- The call keeps the receiver's state and sends nothing but frames in `P`. -/
structure Sends (P : Frame → Prop) (h h' : Host) : Prop where
  same : SameReceiver h h'
  sent : ∀ f ∈ h'.sent, f ∈ h.sent ∨ P f

variable {P : Frame → Prop}

theorem Sends.refl (h : Host) : Sends P h h := ⟨.refl h, fun _ hf => Or.inl hf⟩

theorem Sends.trans {a b c : Host} (h : Sends P a b) (k : Sends P b c) : Sends P a c := by
  refine ⟨h.same.trans k.same, fun f hf => ?_⟩
  cases k.sent f hf with
  | inl hb => exact h.sent f hb
  | inr hp => exact Or.inr hp

theorem Sends.count (h : Host) (c : NetStatCounter) : Sends P h (h.count c) :=
  ⟨sameReceiver_count h c, fun _ hf => Or.inl hf⟩

theorem Sends.arpCache (h : Host) (cache : ArpCache) : Sends P h { h with arpCache := cache } :=
  ⟨⟨rfl, rfl, rfl, rfl, rfl⟩, fun _ hf => Or.inl hf⟩

theorem Sends.netSendRaw (h : Host) (f : Frame) (hp : P f) : Sends P h (netSendRaw h f).2 := by
  refine ⟨netSendRaw_sameReceiver h f, fun g hg => ?_⟩
  rw [netSendRaw_sent] at hg
  split at hg
  · cases List.mem_append.mp hg with
    | inl hg => exact Or.inl hg
    | inr hg => exact Or.inr (List.mem_singleton.mp hg ▸ hp)
  · exact Or.inl hg

theorem Sends.counts (h : Host) (cs : List NetStatCounter) : Sends P h (cs.foldl Host.count h) := by
  induction cs generalizing h with
  | nil => exact .refl h
  | cons c cs ih => exact (Sends.count h c).trans (ih (h.count c))

theorem Sends.afterSend (h : Host) (f : Frame) (cs : List NetStatCounter) (hp : P f) :
    Sends P h (afterSend h f cs).2 := by
  have hr := Sends.netSendRaw h f hp
  simp only [RoundTrip.afterSend]
  split
  · exact hr.trans (.counts _ cs)
  · exact hr

theorem isArp_of_header (e : EthernetHeader) (rest : List UInt8)
    (h : e.etherType = bswap16 ethTypeArp) : IsArp (e.bytes ++ rest) := by
  rw [IsArp, received, ethernetAt_append, h, bswap16_bswap16]

theorem handleArp_sends (f : Buffer) (h h' : Host) (he : handleArp f h = .ok h') :
    Sends IsArp h h' := by
  unfold handleArp at he
  by_cases hs : f.size < sizeofEthernetHeader+sizeofArpPacket
  · rw [if_pos hs] at he
    cases he
    exact .count h _
  simp only [sizeofEthernetHeader, sizeofArpPacket] at hs
  simp only [sizeofEthernetHeader, sizeofArpPacket, if_neg hs,
    EthernetHeader.read_ok f 0 (by omega), ArpPacket.read_ok f 14 (by omega), ok_bind,
    buildArpFrame_eq] at he
  generalize hg : (if arpLearns (arpAt f 14) = true then
    { h with arpCache := arpCacheInsert h.arpCache (arpAt f 14).spa (arpAt f 14).sha } else h) = g
    at he
  have hlearn : Sends IsArp h g := by
    subst hg
    split
    · exact .arpCache h _
    · exact .refl h
  refine hlearn.trans ?_
  by_cases hr : bswap16 (arpAt f 14).oper = arpOpReply
  · rw [if_pos hr] at he
    cases he
    exact .count g _
  rw [if_neg hr] at he
  by_cases hq : bswap16 (arpAt f 14).oper ≠ arpOpRequest
  · rw [if_pos hq] at he
    cases he
    exact .refl _
  rw [if_neg hq] at he
  by_cases ht : (arpAt f 14).tpa ≠ g.myIp
  · rw [if_pos ht] at he
    cases he
    exact .count g _
  rw [if_neg ht] at he
  cases he
  have ha := isArp_of_header (arpReplyHeader (g.count .arpRx) (ethernetAt f 0))
    (arpReplyPacket (g.count .arpRx) (arpAt f 14)).bytes rfl
  have hsend := Sends.afterSend (g.count .arpRx) _ [.arpTx] ha
  exact (Sends.count g .arpRx).trans hsend

theorem netHandleFrame_arp (f : Frame) (h h' : Host) (ha : IsArp f)
    (he : netHandleFrame (received f) h = .ok h') : Sends IsArp h h' := by
  unfold netHandleFrame at he
  by_cases hs : (received f).size < sizeofEthernetHeader
  · rw [if_pos hs] at he
    cases he
    exact .count h _
  simp only [sizeofEthernetHeader] at hs
  simp only [sizeofEthernetHeader, if_neg hs, EthernetHeader.read_ok (received f) 0 (by omega),
    ok_bind] at he
  by_cases hm : macIsForMe h (ethernetAt (received f) 0).dst = false
  · rw [if_pos hm] at he
    cases he
    exact .count h _
  · rw [if_neg hm, if_pos (show bswap16 _ = _ from ha)] at he
    exact handleArp_sends _ _ _ he

/-! Sending a chat message. -/

def OnlyChat (t : UdpTable) : Prop :=
  ∀ e ∈ t.entries, e.handler = none ∨ e.handler = some .chatUdpHandler

theorem OnlyChat.lookup {t : UdpTable} (h : OnlyChat t) {port : UInt16} {handler : UdpHandler}
    (hl : t.lookup port = some handler) : handler = .chatUdpHandler := by
  obtain ⟨e,hf,he⟩ := Option.bind_eq_some_iff.mp hl
  cases h e (List.mem_of_find?_eq_some hf) with
  | inl hn => rw [hn] at he; cases he
  | inr hc => rw [hc] at he; exact (Option.some.inj he).symm

theorem OnlyChat.set {t : UdpTable} (h : OnlyChat t) (i : Nat) (e : UdpHandlerEntry)
    (he : e.handler = some .chatUdpHandler) : OnlyChat (t.set i e) := by
  intro e' hm
  cases List.mem_or_eq_of_mem_set hm with
  | inl hm => exact h e' hm
  | inr heq => exact Or.inr (heq ▸ he)

theorem OnlyChat.register {t : UdpTable} (h : OnlyChat t) (port : UInt16) :
    OnlyChat (udpRegisterHandler t port (some .chatUdpHandler)).2 := by
  unfold udpRegisterHandler
  split
  · exact h
  · split
    · exact h.set _ _ rfl
    · split
      · exact h.set _ _ rfl
      · exact h

/-- The frame of a chat message with this text, from a host with this address. -/
def ChatFrame (srcIp dstIp : Ip) (text : List UInt8) (f : Frame) : Prop :=
  ∃ (s : Host) (dstMac : Mac), s.myIp = srcIp ∧
    f = udpFrame s dstMac dstIp netChatPort netChatPort (chatText text)

theorem sanitizeCstr_text (text : List UInt8) :
    (sanitizeCstr (List.replicate netChatTextSize 0) text).1.take
      (sanitizeCstr (List.replicate netChatTextSize 0) text).2 = chatText text := by
  rw [sanitizeCstr, List.append_assoc, List.take_left, sanitizeChars_eq, chatText]

/-- A chat message leaves as one frame with its text, or as a request for the
receiver's address. -/
theorem netChatSend_sends (h h' : Host) (b : Bool) (dstIp : Ip) (text : List UInt8)
    (he : netChatSend h dstIp text = .ok (b, h')) :
    Sends (fun f => IsArp f ∨ ChatFrame h.myIp dstIp text f) (netChatInit h).2 h' := by
  unfold netChatSend at he
  generalize hg : netChatInit h = g at he
  obtain ⟨ok,g⟩ := g
  have hip : g.myIp = h.myIp := by rw [← show (netChatInit h).2 = g by rw [hg]]; rfl
  simp only [sanitizeCstr_text] at he
  split at he
  · cases he
    exact .refl _
  split at he
  · cases he
    exact .refl _
  have hlen : (chatText text).length ≤ 1472 := (length_chatText text).trans (by decide)
  cases hl : arpCacheLookup g.arpCache dstIp with
  | mk hit cache =>
    cases hit with
    | none =>
      rw [udpSendTo_miss g dstIp cache _ _ _ (by decide) (by decide) hlen hl] at he
      cases he
      exact (Sends.arpCache g cache).trans (.afterSend _ _ _ (Or.inl (isArp_of_header _ _ rfl)))
    | some dstMac =>
      rw [udpSendTo_hit g dstIp cache _ _ _ (by decide) (by decide) hlen dstMac hl] at he
      cases he
      exact (Sends.arpCache g cache).trans (.afterSend _ _ _ (Or.inr ⟨g, dstMac, hip, rfl⟩))

/-! Receiving. -/

theorem printable_length (text : List UInt8) : (chatText text).length ≤ 1472 :=
  (length_chatText text).trans (by decide)

theorem deliverUdp_chat (h : Host) (dstMac : Mac) (srcIp dstIp : Ip) (srcPort dstPort : UInt16)
    (payload : List UInt8) (ht : OnlyChat h.udpTable) (m : ChatMessage)
    (hm : m ∈ (deliverUdp h dstMac srcIp dstIp srcPort dstPort payload).chat.messages) :
    m ∈ h.chat.messages ∨ dstIp = h.myIp ∧ m = chatMessage srcIp srcPort payload := by
  unfold deliverUdp at hm
  split at hm
  · exact Or.inl hm
  split at hm
  · exact Or.inl hm
  rename_i hd
  cases hl : h.udpTable.lookup dstPort with
  | none =>
    rw [hl] at hm
    exact Or.inl hm
  | some handler =>
    rw [hl, ht.lookup hl] at hm
    cases storeMessage_messages h.chat (chatMessage srcIp srcPort payload) m hm with
    | inl hold => exact Or.inl hold
    | inr hnew => exact Or.inr ⟨by simpa using hd, hnew⟩

theorem invoke_frame (h : Host) (handler : UdpHandler) (srcIp : Ip) (srcPort : UInt16)
    (payload : List UInt8) : (h.invoke handler srcIp srcPort payload).myIp = h.myIp ∧
      (h.invoke handler srcIp srcPort payload).udpTable = h.udpTable ∧
      (h.invoke handler srcIp srcPort payload).sent = h.sent := by
  cases handler <;> exact ⟨rfl, rfl, rfl⟩

theorem deliverUdp_frame (h : Host) (dstMac : Mac) (srcIp dstIp : Ip) (srcPort dstPort : UInt16)
    (payload : List UInt8) :
    (deliverUdp h dstMac srcIp dstIp srcPort dstPort payload).myIp = h.myIp ∧
      (deliverUdp h dstMac srcIp dstIp srcPort dstPort payload).udpTable = h.udpTable ∧
      (deliverUdp h dstMac srcIp dstIp srcPort dstPort payload).sent = h.sent := by
  unfold deliverUdp
  split
  · exact ⟨rfl, rfl, rfl⟩
  split
  · exact ⟨rfl, rfl, rfl⟩
  split
  · exact ⟨rfl, rfl, rfl⟩
  · exact invoke_frame _ _ _ _ _

/-! The network. -/

section Network
variable {ι : Type*} [DecidableEq ι]

/-- The hosts and a log of every `net_chat_send` call: caller, destination, text. -/
structure Network (ι : Type*) where
  host : ι → Host
  log : List (ι × Ip × List UInt8)

def Network.update (n : Network ι) (i : ι) (h : Host) : Network ι :=
  { n with host := Function.update n.host i h }

/-- Calls in any order. The link gives `net_chat_poll` no frame, or any frame that some
host has sent so far: lost, repeated, reordered or delivered elsewhere. -/
inductive NetStep : Network ι → Network ι → Prop
  | chatSend {n : Network ι} {i : ι} {dstIp : Ip} {text : List UInt8} {b : Bool} {h : Host} :
      netChatSend (n.host i) dstIp text = .ok (b, h) →
      NetStep n { n.update i h with log := n.log ++ [(i, dstIp, text)] }
  | chatPoll {n : Network ι} {i : ι} {frame : Option Frame} {b : Bool} {h : Host} :
      (∀ f ∈ frame, ∃ j, f ∈ (n.host j).sent) →
      netChatPoll frame (n.host i) = .ok (b, h) → NetStep n (n.update i h)
  | chatRecv {n : Network ι} {i : ι} {maxLen : Nat} :
      NetStep n (n.update i { n.host i with chat := (netChatRecv (n.host i).chat maxLen).2.2 })
  | arpRequest {n : Network ι} {i : ι} {targetIp : Ip} {b : Bool} {h : Host} :
      netSendArpRequest (n.host i) targetIp = .ok (b, h) → NetStep n (n.update i h)

structure Fresh (h : Host) : Prop where
  arpCache : h.arpCache = arpCacheReset
  chat : h.chat = netChatReset
  table : OnlyChat h.udpTable
  sent : h.sent = []

def chatSystem (ι : Type*) [DecidableEq ι] : System (Network ι) where
  Init n := (Function.Injective fun i => (n.host i).myMac) ∧
    (Function.Injective fun i => (n.host i).myIp) ∧ (∀ i, Fresh (n.host i)) ∧ n.log = []
  Step := NetStep

/-- The message is what some host passed to `net_chat_send` for host `i`. -/
def Genuine (n : Network ι) (i : ι) (m : ChatMessage) : Prop :=
  ∃ j text, (j, (n.host i).myIp, text) ∈ n.log ∧ m.srcIp = (n.host j).myIp ∧
    m.string = chatText text

structure Inv (n : Network ι) : Prop where
  table : ∀ i, OnlyChat (n.host i).udpTable
  sent : ∀ i, ∀ f ∈ (n.host i).sent, IsArp f ∨
    ∃ dstIp text, (i, dstIp, text) ∈ n.log ∧ ChatFrame (n.host i).myIp dstIp text f
  messages : ∀ i, ∀ m ∈ (n.host i).chat.messages, m.valid = true → Genuine n i m

@[simp] theorem update_self (n : Network ι) (i : ι) (h : Host) : (n.update i h).host i = h :=
  Function.update_self _ _ _

theorem update_ne (n : Network ι) (h : Host) {i j : ι} (hj : j ≠ i) :
    (n.update i h).host j = n.host j := Function.update_of_ne hj _ _

theorem update_myIp (n : Network ι) (i j : ι) (h : Host) (hip : h.myIp = (n.host i).myIp) :
    ((n.update i h).host j).myIp = (n.host j).myIp := by
  by_cases hj : j = i
  · subst hj; rw [update_self, hip]
  · rw [update_ne n h hj]

/-- The invariant survives a call whose effect on its host is accounted for. -/
theorem Inv.update {n : Network ι} (hn : Inv n) (i : ι) (h : Host)
    (log : List (ι × Ip × List UInt8)) (hlog : ∀ e ∈ n.log, e ∈ log)
    (hip : h.myIp = (n.host i).myIp) (ht : OnlyChat h.udpTable)
    (hsent : ∀ f ∈ h.sent, f ∈ (n.host i).sent ∨ IsArp f ∨
      ∃ dstIp text, (i, dstIp, text) ∈ log ∧ ChatFrame (n.host i).myIp dstIp text f)
    (hmsg : ∀ m ∈ h.chat.messages, m.valid = true →
      m ∈ (n.host i).chat.messages ∨ Genuine n i m) :
    Inv { n.update i h with log := log } := by
  have hips := fun j => update_myIp n i j h hip
  have hgen : ∀ j m, Genuine n j m → Genuine { n.update i h with log := log } j m := by
    rintro j m ⟨k,text,hk,hs,ht⟩
    exact ⟨k, text, by rw [hips j]; exact hlog _ hk, by rw [hips k]; exact hs, ht⟩
  refine ⟨fun j => ?_, fun j f hf => ?_, fun j m hm hv => ?_⟩
  · by_cases hj : j = i
    · subst hj; rw [update_self]; exact ht
    · rw [update_ne n h hj]; exact hn.table j
  · rw [hips j]
    have hold : f ∈ (n.host j).sent → IsArp f ∨
        ∃ dstIp text, (j, dstIp, text) ∈ log ∧ ChatFrame (n.host j).myIp dstIp text f := by
      intro hf
      cases hn.sent j f hf with
      | inl ha => exact Or.inl ha
      | inr hc =>
        obtain ⟨dstIp,text,hl,hc⟩ := hc
        exact Or.inr ⟨dstIp, text, hlog _ hl, hc⟩
    by_cases hj : j = i
    · subst hj
      rw [update_self] at hf
      cases hsent f hf with
      | inl hf => exact hold hf
      | inr hnew => exact hnew
    · rw [update_ne n h hj] at hf
      exact hold hf
  · refine hgen j m ?_
    by_cases hj : j = i
    · subst hj
      rw [update_self] at hm
      cases hmsg m hm hv with
      | inl hold => exact hn.messages j m hold hv
      | inr hnew => exact hnew
    · rw [update_ne n h hj] at hm
      exact hn.messages j m hm hv

theorem inv_init (n : Network ι) (h : (chatSystem ι).Init n) : Inv n := by
  obtain ⟨-,-,hf,-⟩ := h
  refine ⟨fun i => (hf i).table, fun i f hs => ?_, fun i m hm hv => ?_⟩
  · rw [(hf i).sent] at hs; cases hs
  · have hd : m = {} := by
      rw [(hf i).chat, ChatState.messages] at hm
      simp only [netChatReset, List.mem_append, List.mem_replicate, or_self] at hm
      exact hm.2
    rw [hd] at hv
    cases hv

theorem Inv.quiet {n : Network ι} (hn : Inv n) (i : ι) (g h : Host)
    (hg : ∃ t, OnlyChat t ∧ g = { n.host i with udpTable := t }) (hs : Sends IsArp g h) :
    Inv (n.update i h) := by
  obtain ⟨t,ht,rfl⟩ := hg
  refine hn.update i h n.log (fun _ he => he) hs.same.myIp ?_ ?_ ?_
  · rw [hs.same.udpTable]; exact ht
  · intro f hf
    cases hs.sent f hf with
    | inl hold => exact Or.inl hold
    | inr ha => exact Or.inr (Or.inl ha)
  · intro m hm _
    rw [hs.same.chat] at hm
    exact Or.inl hm

theorem inv_handle {n : Network ι} (hn : Inv n) (i j : ι) (f : Frame) (t : UdpTable) (h : Host)
    (ht : OnlyChat t) (hf : f ∈ (n.host j).sent)
    (he : netHandleFrame (received f) ({ n.host i with udpTable := t }.count .rawRx) = .ok h) :
    Inv (n.update i h) := by
  cases hn.sent j f hf with
  | inl ha =>
    exact hn.quiet i _ h ⟨t, ht, rfl⟩ ((Sends.count _ _).trans (netHandleFrame_arp f _ h ha he))
  | inr hc =>
    obtain ⟨dstIp,text,hlog,s,dstMac,hs,rfl⟩ := hc
    rw [netHandleFrame_udpFrame s _ dstMac dstIp _ _ _ (printable_length text)] at he
    cases he
    obtain ⟨hip,htab,hsent⟩ := deliverUdp_frame ({ n.host i with udpTable := t }.count .rawRx)
      dstMac s.myIp dstIp netChatPort netChatPort (chatText text)
    refine hn.update i _ n.log (fun _ he => he) hip ?_ ?_ ?_
    · rw [htab]; exact ht
    · intro f hf
      rw [hsent] at hf
      exact Or.inl hf
    · intro m hm _
      cases deliverUdp_chat _ dstMac s.myIp dstIp _ _ _ (by exact ht) m hm with
      | inl hold => exact Or.inl hold
      | inr hnew =>
        obtain ⟨rfl,rfl⟩ := hnew
        exact Or.inr ⟨j, text, hlog, hs, string_chatMessage _ _ _ (length_chatText text)
          (chatText_printable text)⟩

theorem inv_poll {n : Network ι} (hn : Inv n) (i : ι) (frame : Option Frame) (b : Bool) (h : Host)
    (hlink : ∀ f ∈ frame, ∃ j, f ∈ (n.host j).sent)
    (he : netChatPoll frame (n.host i) = .ok (b, h)) : Inv (n.update i h) := by
  have ht := (hn.table i).register netChatPort
  have hq : ∃ t, OnlyChat t ∧ (netChatInit (n.host i)).2 = { n.host i with udpTable := t } :=
    ⟨_, ht, rfl⟩
  change (if (netChatInit (n.host i)).1 = false then .ok (false, (netChatInit (n.host i)).2) else
    netPollOnce frame (netChatInit (n.host i)).2) = _ at he
  by_cases hi : (netChatInit (n.host i)).1 = false
  · rw [if_pos hi] at he
    cases he
    exact hn.quiet i _ _ hq (.refl _)
  rw [if_neg hi] at he
  cases frame with
  | none =>
    cases he
    exact hn.quiet i _ _ hq (.refl _)
  | some f =>
    obtain ⟨j,hj⟩ := hlink f rfl
    obtain ⟨h',hh,heq⟩ := bind_eq_ok he
    cases heq
    exact inv_handle hn i j f _ _ ht hj hh

theorem inv_step (n n' : Network ι) (hn : Inv n) (hs : NetStep n n') : Inv n' := by
  cases hs with
  | @chatSend i dstIp text b h he =>
    have hsend := netChatSend_sends _ _ _ _ _ he
    refine hn.update i h _ (fun e he => List.mem_append_left _ he) hsend.same.myIp ?_ ?_ ?_
    · rw [hsend.same.udpTable]
      exact (hn.table i).register netChatPort
    · intro f hf
      cases hsend.sent f hf with
      | inl hold => exact Or.inl hold
      | inr hnew =>
        cases hnew with
        | inl ha => exact Or.inr (Or.inl ha)
        | inr hc => exact Or.inr (Or.inr ⟨dstIp, text, by simp, hc⟩)
    · intro m hm _
      rw [hsend.same.chat] at hm
      exact Or.inl hm
  | chatPoll hlink he => exact inv_poll hn _ _ _ _ hlink he
  | @chatRecv i maxLen =>
    refine hn.update i _ n.log (fun _ he => he) rfl (hn.table i) (fun f hf => Or.inl hf) ?_
    intro m hm hv
    cases netChatRecv_messages _ _ _ hm with
    | inl hold => exact Or.inl hold
    | inr hd => rw [hd] at hv; cases hv
  | @arpRequest i targetIp b h he =>
    rw [netSendArpRequest_eq] at he
    have hs : Sends IsArp (n.host i) h := by
      have ha := Sends.afterSend (n.host i) (arpRequestFrame (n.host i) targetIp) [.arpTx]
        (isArp_of_header _ _ rfl)
      cases he
      exact ha
    refine hn.update i h n.log (fun _ he => he) hs.same.myIp ?_ ?_ ?_
    · rw [hs.same.udpTable]; exact hn.table i
    · intro f hf
      cases hs.sent f hf with
      | inl hold => exact Or.inl hold
      | inr ha => exact Or.inr (Or.inl ha)
    · intro m hm _
      rw [hs.same.chat] at hm
      exact Or.inl hm

theorem chat_inv : (chatSystem ι).Invariant Inv := ⟨inv_init, inv_step⟩

/-- Every message held by a host was sent to it by a host of the network. -/
theorem chat_integrity (n : Network ι) (hr : (chatSystem ι).Reachable n) (i : ι)
    (m : ChatMessage) (hm : m ∈ (n.host i).chat.messages) (hv : m.valid = true) :
    ∃ j text, (j, (n.host i).myIp, text) ∈ n.log ∧ m.srcIp = (n.host j).myIp ∧
      m.string = chatText text :=
  (chat_inv.reachable hr).messages i m hm hv

omit [DecidableEq ι] in
theorem poll_inBounds (n : Network ι) (hn : Inv n) (i : ι) (frame : Option Frame)
    (hlink : ∀ f ∈ frame, ∃ j, f ∈ (n.host j).sent) : InBounds (netChatPoll frame (n.host i)) := by
  have hh : ∀ h : Host, ∀ f ∈ frame, InBounds (netHandleFrame (received f) h) := by
    intro h f hf
    obtain ⟨j,hj⟩ := hlink f hf
    cases hn.sent j f hj with
    | inl ha =>
      refine (netHandleFrame_inBounds _ h).mpr fun ho => ?_
      exact absurd (ha.symm.trans ho.1.etherType) (by decide)
    | inr hc =>
      obtain ⟨dstIp,text,-,s,dstMac,-,rfl⟩ := hc
      rw [netHandleFrame_udpFrame s h dstMac dstIp _ _ _ (printable_length text)]
      exact inBounds_ok _
  change InBounds (if _ then _ else netPollOnce frame (netChatInit (n.host i)).2)
  refine inBounds_ite.mpr ⟨fun _ => inBounds_ok _, fun _ => ?_⟩
  cases frame with
  | none => exact inBounds_ok _
  | some f =>
    obtain ⟨h,he⟩ := hh ((netChatInit (n.host i)).2.count .rawRx) f rfl
    exact inBounds_bind.mpr ⟨h, he, inBounds_ok _⟩

end Network

/-! A run of two hosts: a request, its reply, a message and its delivery. -/

def pairHost : Bool → Host
  | false => Host.boot ⟨2, 0, 0, 0, 0, 1⟩ ⟨10, 0, 2, 1⟩ fun _ _ => true
  | true => Host.boot ⟨2, 0, 0, 0, 0, 2⟩ ⟨10, 0, 2, 2⟩ fun _ _ => true

/-- The sender and receiver after the run, and the receiver after its request. -/
def pairRun : Except Fault (Host × Host × Host) := do
  let r1 ← netSendArpRequest (pairHost true) ⟨10, 0, 2, 1⟩
  let r2 ← netChatPoll (some (r1.2.sent.getD 0 [])) (pairHost false)
  let r3 ← netChatSend r2.2 ⟨10, 0, 2, 2⟩ [104, 105]
  let r4 ← netChatPoll (some (r3.2.sent.getD 1 [])) r1.2
  .ok (r3.2, r4.2, r1.2)

def pairDelivered : Host × Host × Host → Bool := fun ⟨a, b, b0⟩ =>
  decide (1 < a.sent.length) && decide (0 < b0.sent.length) &&
    b.chat.inbox.any fun m => m.valid && m.string == [104, 105]

theorem pairRun_delivered : (match pairRun with
    | .ok r => pairDelivered r
    | .error _ => false) = true := by decide +kernel

theorem getD_mem {l : List Frame} {i : Nat} (h : i < l.length) : l.getD i [] ∈ l := by
  rw [List.getD_eq_getElem?_getD, List.getElem?_eq_getElem h, Option.getD_some]
  exact List.getElem_mem h

theorem pairRun_reachable : ∃ n : Network Bool, (chatSystem Bool).Reachable n ∧
    ∃ m ∈ (n.host true).chat.messages, m.valid = true ∧ m.string = [104, 105] := by
  have hd := pairRun_delivered
  cases hr : pairRun with
  | error e => rw [hr] at hd; cases hd
  | ok r =>
    rw [hr] at hd
    obtain ⟨r1,h1,hr⟩ := bind_eq_ok hr
    obtain ⟨r2,h2,hr⟩ := bind_eq_ok hr
    obtain ⟨r3,h3,hr⟩ := bind_eq_ok hr
    obtain ⟨r4,h4,hr⟩ := bind_eq_ok hr
    cases hr
    simp only [pairDelivered, Bool.and_eq_true, decide_eq_true_eq, List.any_eq_true,
      beq_iff_eq] at hd
    obtain ⟨⟨ha,hb⟩,m,hm,hv,hs⟩ := hd
    have s0 : (chatSystem Bool).Reachable ⟨pairHost, []⟩ := by
      refine .init ⟨?_, ?_, fun i => ?_, rfl⟩
      · intro i j; revert i j; decide
      · intro i j; revert i j; decide
      · cases i <;> exact ⟨rfl, rfl, fun e he => Or.inl (List.eq_of_mem_replicate he ▸ rfl), rfl⟩
    have s1 := s0.step (.arpRequest (i := true) h1)
    have s2 := s1.step (.chatPoll (i := false) (b := r2.1) (h := r2.2)
      (by rintro f ⟨⟩; exact ⟨true, by rw [update_self]; exact getD_mem hb⟩)
      (show netChatPoll (some (r1.2.sent.getD 0 [])) _ = _ by
        rw [update_ne _ _ (by decide)]; exact h2))
    have s3 := s2.step (.chatSend (i := false) (b := r3.1) (h := r3.2)
      (by rw [update_self]; exact h3))
    have s4 := s3.step (.chatPoll (i := true) (b := r4.1) (h := r4.2)
      (by rintro f ⟨⟩; exact ⟨false, by simp only [update_self]; exact getD_mem ha⟩)
      (show netChatPoll (some (r3.2.sent.getD 1 [])) _ = _ by
        rw [ update_ne _ _ (by decide), update_ne _ _ (by decide), update_self]; exact h4))
    exact ⟨_, s4, m, by rw [update_self]; exact List.mem_append_right _ hm, hv, hs⟩

theorem chat_integrity_pair : ∃ n : Network Bool, (chatSystem Bool).Reachable n ∧
    ∃ m ∈ (n.host true).chat.messages, m.string = [104, 105] ∧
      ∃ j text, (j, (n.host true).myIp, text) ∈ n.log ∧ m.srcIp = (n.host j).myIp ∧
        m.string = chatText text := by
  obtain ⟨n,hr,m,hm,hv,hs⟩ := pairRun_reachable
  exact ⟨n, hr, m, hm, hs, chat_integrity n hr true m hm hv⟩

end NetKernel.ChatIntegrity
