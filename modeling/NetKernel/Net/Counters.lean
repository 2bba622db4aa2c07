import Mathlib.Data.List.Nodup
import NetKernel.Net.ArpBindings

/-! The packet counters over whole runs. Each call bumps one of a few lists of counters,
and the balance between the counters is read off these lists. -/
namespace NetKernel.Counters
open Words Headers Buffers ArpCaches ChatQueue Hosts Receive Send RoundTrip Replies ArpBindings

inductive NetCall where
  | netSendIpv4 (dstIp : Ip) (protocol : UInt8) (payload : Buffer) (payloadLen : Nat)
  | netSendArpRequest (targetIp : Ip)
  | udpSendTo (dstIp : Ip) (srcPort dstPort : UInt16) (payload : List UInt8)
  | netChatSend (dstIp : Ip) (text : List UInt8)

def NetCall.run : NetCall → Host → Except Fault (Bool × Host)
  | .netSendIpv4 dstIp protocol payload payloadLen, h =>
    Send.netSendIpv4 h dstIp protocol payload payloadLen
  | .netSendArpRequest targetIp, h => Send.netSendArpRequest h targetIp
  | .udpSendTo dstIp srcPort dstPort payload, h => Send.udpSendTo h dstIp srcPort dstPort payload
  | .netChatSend dstIp text, h => Send.netChatSend h dstIp text

/-- A sequence of completed calls with `n` received frames and send calls among them. A UDP
handler is the last thing its frame causes, and makes calls of its own before the frame's
call returns. Whatever else happens leaves the counters alone. -/
inductive Calls : Nat → Host → Host → Prop
  | done (h : Host) : Calls 0 h h
  | other {n : Nat} {h h₁ h₂ : Host} : h₁.stats = h.stats → Calls n h₁ h₂ → Calls n h h₂
  | send {n : Nat} {h h₁ h₂ : Host} {b : Bool} (call : NetCall) : call.run h = .ok (b, h₁) →
      Calls n h₁ h₂ → Calls (n+1) h h₂
  | idle {n : Nat} {h h₁ h₂ : Host} {b : Bool} : netPollOnce none h = .ok (b, h₁) →
      Calls n h₁ h₂ → Calls n h h₂
  | poll {n : Nat} {h h₁ h₂ : Host} {b : Bool} (frame : Frame) :
      netPollOnce (some frame) h = .ok (b, h₁) → h₁.calls = h.calls → Calls n h₁ h₂ →
      Calls (n+1) h h₂
  | handler {m n : Nat} {h h₁ h₂ h₃ : Host} {b : Bool} (frame : Frame) (call : UdpCall) :
      netPollOnce (some frame) h = .ok (b, h₁) → h₁.calls = h.calls ++ [call] →
      Calls m h₁ h₂ → Calls n h₂ h₃ → Calls (m+n+1) h h₃

/-! Lists of bumped counters. -/

def bump (s : NetStats) (c : NetStatCounter) : NetStats :=
  fun d => if d = c then (s d+1) % 2^64 else s d

/-- The call bumps the counters of one of these lists, in that order. -/
def Bumps (lists : List (List NetStatCounter)) (h h' : Host) : Prop :=
  ∃ cs ∈ lists, h'.stats = cs.foldl bump h.stats

section Bumps
variable {lists lists' : List (List NetStatCounter)} {h h' h'' : Host}

theorem stats_counts (h : Host) (cs : List NetStatCounter) :
    (cs.foldl Host.count h).stats = cs.foldl bump h.stats := by
  induction cs generalizing h with
  | nil => rfl
  | cons c cs ih => exact ih (h.count c)

theorem Bumps.mono (hb : Bumps lists h h') (hs : lists ⊆ lists') : Bumps lists' h h' := by
  obtain ⟨cs,hc,he⟩ := hb
  exact ⟨cs, hs hc, he⟩

theorem bumps_nothing (hn : [] ∈ lists) (hs : h'.stats = h.stats) : Bumps lists h h' :=
  ⟨[], hn, hs⟩

theorem bumps_count (c : NetStatCounter) (hc : [c] ∈ lists) : Bumps lists h (h.count c) :=
  ⟨[c], hc, rfl⟩

theorem Bumps.after (hb : Bumps lists h' h'') (cs : List NetStatCounter)
    (he : h'.stats = cs.foldl bump h.stats) : Bumps (lists.map (cs ++ ·)) h h'' := by
  obtain ⟨ds,hd,hs⟩ := hb
  refine ⟨cs ++ ds, List.mem_map_of_mem hd, ?_⟩
  rw [hs, he, List.foldl_append]

theorem Bumps.of_stats (hb : Bumps lists h' h'') (he : h'.stats = h.stats) :
    Bumps lists h h'' := by
  obtain ⟨cs,hc,hs⟩ := hb
  exact ⟨cs, hc, by rw [hs, he]⟩

theorem netSendRaw_stats (h : Host) (frame : Frame) : (netSendRaw h frame).2.stats =
    if (netSendRaw h frame).1 then bump h.stats .rawTx else h.stats := by
  unfold netSendRaw
  split
  · rfl
  · split <;> rfl

/-- A frame the backend takes bumps `raw_tx` before the counters of the layers above. -/
theorem bumps_afterSend (h : Host) (frame : Frame) (cs : List NetStatCounter) :
    Bumps [[], .rawTx :: cs] h (afterSend h frame cs).2 := by
  have hraw := netSendRaw_stats h frame
  unfold afterSend
  cases hr : netSendRaw h frame with
  | mk accepted h1 =>
    rw [hr] at hraw
    cases accepted with
    | false => exact ⟨[], by simp, hraw⟩
    | true =>
      refine ⟨.rawTx :: cs, by simp, ?_⟩
      change (cs.foldl Host.count h1).stats = _
      rw [stats_counts, hraw]
      rfl

end Bumps

/-! What each function may bump. -/

def arpCounts : List (List NetStatCounter) :=
  [[], [.arpRx], [.droppedShort], [.droppedNotForMe], [.arpRx, .rawTx, .arpTx]]

def udpCounts : List (List NetStatCounter) := [[], [.droppedShort], [.udpRx]]

def icmpCounts : List (List NetStatCounter) :=
  [[], [.droppedShort], [.droppedBadChecksum], [.icmpRx], [.icmpRx, .rawTx, .ipv4Tx, .icmpTx]]

def ipv4PayloadCounts : List (List NetStatCounter) :=
  [[.droppedShort], [.droppedUnknownIpv4Protocol]] ++ udpCounts ++ icmpCounts

def ipv4Counts : List (List NetStatCounter) :=
  [[.droppedShort], [.droppedBadChecksum], [.droppedNotForMe]] ++
    ipv4PayloadCounts.map ([.ipv4Rx] ++ ·)

def frameCounts : List (List NetStatCounter) :=
  [[.droppedShort], [.droppedNotForMe], [.droppedUnknownEthertype]] ++ arpCounts ++ ipv4Counts

def pollCounts : List (List NetStatCounter) := frameCounts.map ([.rawRx] ++ ·)

def sendCounts : List (List NetStatCounter) :=
  [[], [.rawTx, .arpTx], [.rawTx, .ipv4Tx], [.rawTx, .ipv4Tx, .udpTx]]

section Handlers
variable {f : Buffer} {h h' : Host}

theorem handleArp_bumps (he : handleArp f h = .ok h') : Bumps arpCounts h h' := by
  have hlearn : ∀ arp : ArpPacket, (learn h arp).stats = h.stats := by
    intro arp
    unfold learn
    split <;> rfl
  by_cases hl : f.size < sizeofEthernetHeader+sizeofArpPacket
  · rw [handleArp, if_pos hl] at he
    cases he
    exact bumps_count .droppedShort (by decide)
  rw [handleArp_eq f h (Nat.le_of_not_lt hl)] at he
  cases he
  unfold arpOutcome
  split
  · exact (bumps_count .arpRx (by decide)).of_stats (hlearn _)
  split
  · exact bumps_nothing (by decide) (hlearn _)
  split
  · exact (bumps_count .droppedNotForMe (by decide)).of_stats (hlearn _)
  · have hs := bumps_afterSend ((learn h (arpAt f 14)).count .arpRx)
      (arpReplyFrame h (ethernetAt f 0) (arpAt f 14)) [.arpTx]
    have hr := hs.after [.arpRx] (h := learn h (arpAt f 14)) rfl
    exact (hr.of_stats (hlearn _)).mono (by decide)

theorem udpHandlePacket_bumps {srcIp : Ip} {off len : Nat} {r : Bool × Host}
    (he : udpHandlePacket srcIp f off len h = .ok r) : Bumps udpCounts h r.2 := by
  unfold udpHandlePacket at he
  split at he
  · cases he
    exact bumps_count .droppedShort (by decide)
  obtain ⟨udp,-,he⟩ := bind_eq_ok he
  simp only at he
  split at he
  · cases he
    exact bumps_count .droppedShort (by decide)
  split at he
  · cases he
    exact bumps_nothing (by decide) rfl
  rename_i handler _
  obtain ⟨payload,-,he⟩ := bind_eq_ok he
  cases he
  refine ⟨[.udpRx], by decide, ?_⟩
  cases handler <;> rfl

variable {eth : EthernetHeader} {ip : Ipv4Header} {ipHdrLen ipTotalLen : Nat}

theorem handleIcmp_bumps (he : handleIcmp f h eth ip ipHdrLen ipTotalLen = .ok h') :
    Bumps icmpCounts h h' := by
  unfold handleIcmp at he
  split at he
  · cases he
    exact bumps_count .droppedShort (by decide)
  obtain ⟨icmp,-,he⟩ := bind_eq_ok he
  split at he
  · cases he
    exact bumps_nothing (by decide) rfl
  obtain ⟨sum,-,he⟩ := bind_eq_ok he
  split at he
  · cases he
    exact bumps_count .droppedBadChecksum (by decide)
  obtain ⟨reply,-,he⟩ := bind_eq_ok he
  cases he
  have hs := bumps_afterSend (h.count .icmpRx) reply [.ipv4Tx, .icmpTx]
  exact (hs.after [.icmpRx] (h := h) rfl).mono (by decide)

theorem handleIpv4Payload_bumps (he : handleIpv4Payload f h eth ip ipHdrLen ipTotalLen = .ok h') :
    Bumps ipv4PayloadCounts h h' := by
  unfold handleIpv4Payload at he
  split at he
  · cases he
    exact bumps_count .droppedShort (by decide)
  split at he
  · cases he
    exact bumps_count .droppedShort (by decide)
  split at he
  · obtain ⟨r,hr,he⟩ := bind_eq_ok he
    cases he
    exact (udpHandlePacket_bumps hr).mono (by decide)
  split at he
  · cases he
    exact bumps_count .droppedUnknownIpv4Protocol (by decide)
  · exact (handleIcmp_bumps he).mono (by decide)

theorem handleIpv4_bumps (he : handleIpv4 f h = .ok h') : Bumps ipv4Counts h h' := by
  unfold handleIpv4 at he
  split at he
  · cases he
    exact bumps_count .droppedShort (by decide)
  obtain ⟨eth,-,he⟩ := bind_eq_ok he
  obtain ⟨ip,-,he⟩ := bind_eq_ok he
  simp only at he
  split at he
  · cases he
    exact bumps_count .droppedShort (by decide)
  split at he
  · cases he
    exact bumps_count .droppedShort (by decide)
  obtain ⟨sum,-,he⟩ := bind_eq_ok he
  split at he
  · cases he
    exact bumps_count .droppedBadChecksum (by decide)
  split at he
  · cases he
    exact bumps_count .droppedNotForMe (by decide)
  · exact ((handleIpv4Payload_bumps he).after [.ipv4Rx] (h := h) rfl).mono (by decide)

theorem netHandleFrame_bumps (he : netHandleFrame f h = .ok h') : Bumps frameCounts h h' := by
  unfold netHandleFrame at he
  split at he
  · cases he
    exact bumps_count .droppedShort (by decide)
  obtain ⟨eth,-,he⟩ := bind_eq_ok he
  split at he
  · cases he
    exact bumps_count .droppedNotForMe (by decide)
  simp only at he
  split at he
  · exact (handleArp_bumps he).mono (by decide)
  split at he
  · exact (handleIpv4_bumps he).mono (by decide)
  · cases he
    exact bumps_count .droppedUnknownEthertype (by decide)

theorem netPollOnce_bumps {frame : Frame} {b : Bool}
    (he : netPollOnce (some frame) h = .ok (b, h')) : Bumps pollCounts h h' := by
  obtain ⟨h1,hf,he⟩ := bind_eq_ok he
  cases he
  exact (netHandleFrame_bumps hf).after [.rawRx] (h := h) rfl

end Handlers

section Sends
variable {h h' : Host} {b : Bool}

theorem netSendArpRequest_bumps {targetIp : Ip} (he : netSendArpRequest h targetIp = .ok (b, h')) :
    Bumps sendCounts h h' := by
  rw [netSendArpRequest_eq] at he
  cases he
  exact (bumps_afterSend h (arpRequestFrame h targetIp) [.arpTx]).mono (by decide)

theorem netSendIpv4_bumps {dstIp : Ip} {protocol : UInt8} {payload : Buffer} {n : Nat}
    (he : netSendIpv4 h dstIp protocol payload n = .ok (b, h')) :
    Bumps (if b then [[.rawTx, .ipv4Tx]] else [[], [.rawTx, .arpTx]]) h h' := by
  obtain ⟨rfl,rfl⟩ | ⟨cache,-,rfl,rfl⟩ | ⟨dstMac,cache,-,hs⟩ := netSendIpv4_cases he
  · exact bumps_nothing (by decide) rfl
  · exact (bumps_afterSend { h with arpCache := cache } (arpRequestFrame h dstIp) [.arpTx]).mono
      (by decide)
  · generalize ipv4Frame h dstMac dstIp protocol (payload.slice 0 n) = frame at hs
    have hraw := netSendRaw_stats { h with arpCache := cache } frame
    unfold afterSend at hs
    cases hr : netSendRaw { h with arpCache := cache } frame with
    | mk accepted h1 =>
      rw [hr] at hs hraw
      cases accepted with
      | false =>
        cases hs
        exact bumps_nothing (by decide) hraw
      | true =>
        cases hs
        refine ⟨[.rawTx, .ipv4Tx], by decide, ?_⟩
        change bump h1.stats .ipv4Tx = _
        rw [hraw]
        rfl

theorem udpSendTo_bumps {dstIp : Ip} {srcPort dstPort : UInt16} {payload : List UInt8}
    (he : udpSendTo h dstIp srcPort dstPort payload = .ok (b, h')) : Bumps sendCounts h h' := by
  unfold udpSendTo at he
  split at he
  · cases he
    exact bumps_nothing (by decide) rfl
  split at he
  · cases he
    exact bumps_nothing (by decide) rfl
  obtain ⟨headed,-,he⟩ := bind_eq_ok he
  obtain ⟨packet,-,he⟩ := bind_eq_ok he
  obtain ⟨⟨sent,h1⟩,hs,he⟩ := bind_eq_ok he
  cases he
  have hb := netSendIpv4_bumps hs
  cases b with
  | false => exact hb.mono (by decide)
  | true =>
    obtain ⟨cs,hc,hstats⟩ := hb
    refine ⟨cs ++ [.udpTx], ?_, ?_⟩
    · obtain rfl := List.mem_singleton.mp hc
      decide
    · change bump h1.stats .udpTx = _
      rw [hstats, List.foldl_append]
      rfl

theorem netChatSend_bumps {dstIp : Ip} {text : List UInt8}
    (he : netChatSend h dstIp text = .ok (b, h')) : Bumps sendCounts h h' := by
  unfold netChatSend at he
  have hinit : (netChatInit h).2.stats = h.stats := rfl
  generalize netChatInit h = init at he hinit
  obtain ⟨ok,h1⟩ := init
  simp only at he
  split at he
  · cases he
    exact bumps_nothing (by decide) hinit
  split at he
  · cases he
    exact bumps_nothing (by decide) hinit
  · exact (udpSendTo_bumps he).of_stats hinit

theorem NetCall.run_bumps {call : NetCall} (he : call.run h = .ok (b, h')) :
    Bumps sendCounts h h' := by
  cases call with
  | netSendIpv4 dstIp protocol payload payloadLen =>
    have hb := netSendIpv4_bumps he
    cases b with
    | false => exact hb.mono (by decide)
    | true => exact hb.mono (by decide)
  | netSendArpRequest targetIp => exact netSendArpRequest_bumps he
  | udpSendTo dstIp srcPort dstPort payload => exact udpSendTo_bumps he
  | netChatSend dstIp text => exact netChatSend_bumps he

end Sends

/-! The balance. -/

/-- What counts of packets have in common, whatever was sent and received. -/
structure Balanced (t : NetStatCounter → Nat) : Prop where
  sent : t .rawTx = t .arpTx+t .ipv4Tx
  ipv4Sent : t .icmpTx+t .udpTx ≤ t .ipv4Tx
  answered : t .icmpTx ≤ t .icmpRx
  ipv4Received : t .icmpRx+t .udpRx ≤ t .ipv4Rx
  received : t .arpRx+t .ipv4Rx ≤ t .rawRx
  accepted_or_dropped : t .arpRx+t .icmpRx+t .udpRx+(t .droppedShort+t .droppedBadChecksum+
    t .droppedNotForMe+t .droppedUnknownEthertype+t .droppedUnknownIpv4Protocol) ≤ t .rawRx

theorem balanced_iff {t : NetStatCounter → Nat} : Balanced t ↔ t .rawTx = t .arpTx+t .ipv4Tx ∧
    t .icmpTx+t .udpTx ≤ t .ipv4Tx ∧ t .icmpTx ≤ t .icmpRx ∧ t .icmpRx+t .udpRx ≤ t .ipv4Rx ∧
    t .arpRx+t .ipv4Rx ≤ t .rawRx ∧ t .arpRx+t .icmpRx+t .udpRx+(t .droppedShort+
      t .droppedBadChecksum+t .droppedNotForMe+t .droppedUnknownEthertype+
      t .droppedUnknownIpv4Protocol) ≤ t .rawRx :=
  ⟨fun h => ⟨h.1, h.2, h.3, h.4, h.5, h.6⟩, fun ⟨a, b, c, d, e, f⟩ => ⟨a, b, c, d, e, f⟩⟩

instance (t : NetStatCounter → Nat) : Decidable (Balanced t) :=
  decidable_of_iff _ balanced_iff.symm

theorem Balanced.add {t u : NetStatCounter → Nat} (ht : Balanced t) (hu : Balanced u) :
    Balanced fun c => t c+u c where
  sent := by
    have := ht.sent
    have := hu.sent
    omega
  ipv4Sent := by
    have := ht.ipv4Sent
    have := hu.ipv4Sent
    omega
  answered := Nat.add_le_add ht.answered hu.answered
  ipv4Received := by
    have := ht.ipv4Received
    have := hu.ipv4Received
    omega
  received := by
    have := ht.received
    have := hu.received
    omega
  accepted_or_dropped := by
    have := ht.accepted_or_dropped
    have := hu.accepted_or_dropped
    omega

/-- The balance of one list of counters, each bumped at most once. -/
def Fair (cs : List NetStatCounter) : Prop := cs.Nodup ∧ Balanced (cs.count ·)

instance (cs : List NetStatCounter) : Decidable (Fair cs) := instDecidableAnd

theorem fair_poll : ∀ cs ∈ pollCounts, Fair cs := by decide

theorem fair_send : ∀ cs ∈ sendCounts, Fair cs := by decide

theorem foldl_bump {s : NetStats} {d : NetStatCounter} (cs : List NetStatCounter)
    (hs : s d+cs.count d < 2^64) : cs.foldl bump s d = s d+cs.count d := by
  induction cs generalizing s with
  | nil => rfl
  | cons c cs ih =>
    rw [List.foldl_cons]
    by_cases hd : d = c
    · subst hd
      rw [List.count_cons_self] at hs ⊢
      have hb : bump s d d = s d+1 := by
        rw [bump, if_pos rfl]
        exact Nat.mod_eq_of_lt (by omega)
      rw [ih (by omega), hb]
      omega
    · rw [List.count_cons_of_ne (Ne.symm hd)] at hs ⊢
      have hb : bump s c d = s d := if_neg hd
      rw [ih (by omega), hb]

/-- The counters bumped since `h`, by at most `n` calls. -/
structure Ledger (n : Nat) (h h' : Host) (cs : List NetStatCounter) : Prop where
  stats : h'.stats = cs.foldl bump h.stats
  balanced : Balanced (cs.count ·)
  count_le : ∀ c, cs.count c ≤ n

section Ledger
variable {m n : Nat} {h h₁ h₂ : Host} {cs ds : List NetStatCounter}

theorem Ledger.nil (hs : h₁.stats = h.stats) : Ledger 0 h h₁ [] :=
  ⟨hs, by decide, fun _ => le_refl _⟩

theorem Ledger.append (hc : Ledger m h h₁ cs) (hd : Ledger n h₁ h₂ ds) :
    Ledger (m+n) h h₂ (cs ++ ds) where
  stats := by rw [hd.stats, hc.stats, List.foldl_append]
  balanced := by
    simp only [List.count_append]
    exact hc.balanced.add hd.balanced
  count_le c := by
    rw [List.count_append]
    exact Nat.add_le_add (hc.count_le c) (hd.count_le c)

theorem Bumps.ledger {lists : List (List NetStatCounter)} (hb : Bumps lists h h₁)
    (hf : ∀ cs ∈ lists, Fair cs) : ∃ cs, Ledger 1 h h₁ cs := by
  obtain ⟨cs,hc,hs⟩ := hb
  obtain ⟨hn,hbal⟩ := hf cs hc
  exact ⟨cs, hs, hbal, fun c => List.nodup_iff_count_le_one.mp hn c⟩

end Ledger

theorem Calls.ledger {n : Nat} {h h' : Host} (hr : Calls n h h') : ∃ cs, Ledger n h h' cs := by
  induction hr with
  | done h => exact ⟨[], .nil rfl⟩
  | other hs _ ih =>
    obtain ⟨cs,hc⟩ := ih
    have ha := (Ledger.nil hs).append hc
    rw [Nat.zero_add] at ha
    exact ⟨_, ha⟩
  | send call he _ ih =>
    obtain ⟨ds,hd⟩ := (NetCall.run_bumps he).ledger fair_send
    obtain ⟨cs,hc⟩ := ih
    have ha := hd.append hc
    rw [Nat.add_comm] at ha
    exact ⟨_, ha⟩
  | idle he _ ih =>
    cases he
    exact ih
  | poll frame he _ _ ih =>
    obtain ⟨ds,hd⟩ := (netPollOnce_bumps he).ledger fair_poll
    obtain ⟨cs,hc⟩ := ih
    have ha := hd.append hc
    rw [Nat.add_comm] at ha
    exact ⟨_, ha⟩
  | handler frame call he _ _ _ ihm ihn =>
    -- the calls of the handler come between the frame and what follows it
    obtain ⟨ds,hd⟩ := (netPollOnce_bumps he).ledger fair_poll
    obtain ⟨bs,hb⟩ := ihm
    obtain ⟨cs,hc⟩ := ihn
    have ha := hd.append (hb.append hc)
    rw [Nat.add_comm] at ha
    exact ⟨_, ha⟩

/-- From a reset on, and before any counter can have wrapped, the counters are balanced
after every sequence of calls. -/
theorem packet_counters {n : Nat} {h h' : Host} (h0 : h.stats = netStatsReset)
    (hr : Calls n h h') (hn : n < 2^64) : Balanced h'.stats := by
  obtain ⟨cs,hc⟩ := hr.ledger
  have hstats : h'.stats = (cs.count ·) := by
    funext d
    have hz : h.stats d = 0 := by rw [h0, netStatsReset]
    have hle := hc.count_le d
    rw [hc.stats, foldl_bump cs (by omega), hz, Nat.zero_add]
  rw [hstats]
  exact hc.balanced

/-! A run: a datagram arrives, and its handler answers an address it has not resolved. -/

def handlerHost : Host :=
  { Host.boot defaultMac defaultIp fun _ _ => true with
    udpTable := (udpRegisterHandler udpClearHandlers 7 (some (.application 0))).2 }

def handlerFrame : Frame :=
  udpFrame (Host.boot ⟨2, 0, 0, 0, 0, 1⟩ ⟨10, 0, 2, 1⟩ fun _ _ => true) defaultMac defaultIp 9 7 [1]

def handlerCall : UdpCall := ⟨.application 0, ⟨10, 0, 2, 1⟩, 9, [1]⟩

def handlerRun : Except Fault (Host × Host) := do
  let (_, h) ← netPollOnce (some handlerFrame) handlerHost
  let (_, h') ← udpSendTo h ⟨10, 0, 2, 1⟩ 7 9 [2]
  .ok (h, h')

def handlerAnswered : Host × Host → Bool := fun ⟨h, h'⟩ =>
  decide (h.calls = [handlerCall]) && h'.stats .udpRx == 1 && h'.stats .arpTx == 1

theorem handlerRun_answered : (match handlerRun with
    | .ok r => handlerAnswered r
    | .error _ => false) = true := by decide +kernel

theorem packet_counters_handler : ∃ h : Host, Calls 2 handlerHost h ∧ Balanced h.stats ∧
    h.stats .udpRx = 1 ∧ h.stats .arpTx = 1 := by
  have ha := handlerRun_answered
  cases hr : handlerRun with
  | error e => rw [hr] at ha; cases ha
  | ok r =>
    rw [hr] at ha
    obtain ⟨⟨b1,h1⟩,hp,hr⟩ := bind_eq_ok hr
    obtain ⟨⟨b2,h2⟩,hs,hr⟩ := bind_eq_ok hr
    cases hr
    simp only [handlerAnswered, Bool.and_eq_true, decide_eq_true_eq, beq_iff_eq] at ha
    obtain ⟨⟨hc,hu⟩,ht⟩ := ha
    have hbody : Calls 1 h1 h2 :=
      .send (.udpSendTo ⟨10, 0, 2, 1⟩ 7 9 [2]) hs (.done h2)
    have hrun : Calls 2 handlerHost h2 := .handler handlerFrame handlerCall hp hc hbody (.done h2)
    exact ⟨h2, hrun, packet_counters rfl hrun (by decide), hu, ht⟩

end NetKernel.Counters
