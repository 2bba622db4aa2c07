import NetKernel.Net.Receive
import NetKernel.Lib.KeyedSlots
import Mathlib.Data.Finset.Card
import Mathlib.Data.List.GetD

/-! The UDP port table as a map from ports to handlers. The two scans of a registration
and the scan of a dispatch agree because no port is in two valid slots. -/
namespace NetKernel.PortTables
open Words Headers Buffers Hosts Receive KeyedSlots

/-- What the table is for: at most 8 nonzero ports, each with a handler. -/
structure PortMap where
  handler : UInt16 → Option UdpHandler
  ports : Finset UInt16
  mem_ports : ∀ p, p ∈ ports ↔ handler p ≠ none
  zero : 0 ∉ ports
  card_le : ports.card ≤ udpHandlerCapacity

namespace PortMap

def empty : PortMap where
  handler _ := none
  ports := ∅
  mem_ports p := by simp
  zero := by simp
  card_le := by simp

def HasRoom (m : PortMap) (port : UInt16) : Prop :=
  port ∈ m.ports ∨ m.ports.card < udpHandlerCapacity

instance (m : PortMap) (port : UInt16) : Decidable (m.HasRoom port) :=
  inferInstanceAs (Decidable (_ ∨ _))

def bind (m : PortMap) (port : UInt16) (handler : UdpHandler) (h0 : port ≠ 0)
    (hr : m.HasRoom port) : PortMap where
  handler p := if p = port then some handler else m.handler p
  ports := insert port m.ports
  mem_ports p := by
    by_cases hp : p = port
    · simp [hp]
    · rw [if_neg hp, Finset.mem_insert, or_iff_right hp, m.mem_ports]
  zero := by
    rw [Finset.mem_insert, not_or]
    exact ⟨h0.symm, m.zero⟩
  card_le := by
    obtain hr | hr := hr
    · rw [Finset.insert_eq_of_mem hr]
      exact m.card_le
    · exact (Finset.card_insert_le _ _).trans hr

def register (m : PortMap) (port : UInt16) : Option UdpHandler → Bool × PortMap
  | none => (false, m)
  | some handler =>
    if h : port ≠ 0 ∧ m.HasRoom port then (true, m.bind port handler h.1 h.2) else (false, m)

end PortMap

def boundPort (e : UdpHandlerEntry) : Option UInt16 := if e.valid then some e.port else none

/-- The table holds the map, each port in one slot. -/
structure Represents (t : UdpTable) (m : PortMap) : Prop where
  distinct : (keys boundPort t.entries).Nodup
  ports : (keys boundPort t.entries).toFinset = m.ports
  handler : ∀ p, t.lookup p = m.handler p

section Scans
variable {t : UdpTable} {m : PortMap} {port : UInt16} {e : UdpHandlerEntry} {i : Nat}

theorem boundPort_beq : (boundPort e == some port) = (e.valid && e.port == port) := by
  unfold boundPort
  cases e.valid <;> rfl

theorem boundPort_eq : boundPort e = some port ↔ (e.valid && e.port == port) = true := by
  rw [← boundPort_beq, beq_iff_eq]

theorem boundPort_eq_none : boundPort e = none ↔ (!e.valid) = true := by
  unfold boundPort
  cases e.valid <;> simp

theorem lookup_eq : t.lookup port = (entry boundPort t.entries port).bind (·.handler) := by
  simp only [UdpTable.lookup, entry, boundPort_beq]

theorem Represents.mem_keys (h : Represents t m) : port ∈ keys boundPort t.entries ↔
    port ∈ m.ports := by rw [← h.ports, List.mem_toFinset]

theorem Represents.length_keys (h : Represents t m) :
    (keys boundPort t.entries).length = m.ports.card := by
  rw [← h.ports, List.toFinset_card_of_nodup h.distinct]

theorem represents_cleared : Represents udpClearHandlers PortMap.empty where
  distinct := by decide
  ports := by decide
  handler _ := rfl

/-- The first scan of a registration finds the port exactly when it is in the map. -/
theorem Represents.scan_port (h : Represents t m) :
    (t.entries.findIdx? fun e => e.valid && e.port == port) = none ↔ port ∉ m.ports := by
  rw [List.findIdx?_eq_none_iff, ← h.mem_keys, KeyedSlots.mem_keys, not_exists]
  refine forall_congr' fun e => ?_
  rw [not_and, boundPort_eq, Bool.not_eq_true]

/-- The second scan finds a slot exactly when there are fewer than 8 ports. -/
theorem Represents.scan_free (h : Represents t m) :
    (t.entries.findIdx? fun e => !e.valid) = none ↔ ¬ m.ports.card < udpHandlerCapacity := by
  rw [List.findIdx?_eq_none_iff, ← h.length_keys, ← t.size, ← exists_free, not_exists]
  refine forall_congr' fun e => ?_
  rw [not_and, boundPort_eq_none, Bool.not_eq_true]

theorem Represents.fill {handler : UdpHandler} (h : Represents t m) (h0 : port ≠ 0)
    (hr : m.HasRoom port) (hi : i < t.entries.length)
    (ho : boundPort t.entries[i] = some port ∨
      boundPort t.entries[i] = none ∧ port ∉ keys boundPort t.entries) :
    Represents (t.set i ⟨true, port, some handler⟩) (m.bind port handler h0 hr) := by
  obtain ⟨hn,he⟩ := replace_at (e := ⟨true, port, some handler⟩) h.distinct hi rfl ho
  refine ⟨hn, Finset.ext fun p => ?_, fun p => ?_⟩
  · have hp := he p
    have hmem : p ∈ keys boundPort (t.set i ⟨true, port, some handler⟩).entries ↔
        p = port ∨ p ∈ keys boundPort t.entries := by
      rw [← not_iff_not, not_or, ← entry_eq_none, ← entry_eq_none]
      change entry boundPort (t.entries.set i _) p = none ↔ _
      rw [hp]
      by_cases hpp : p = port
      · simp [hpp]
      · rw [if_neg hpp, and_iff_right hpp]
    rw [List.mem_toFinset, hmem, h.mem_keys]
    exact Finset.mem_insert.symm
  · change _ = if p = port then some handler else m.handler p
    rw [lookup_eq]
    change (entry boundPort (t.entries.set i _) p).bind _ = _
    rw [he p, ← h.handler p, lookup_eq]
    split <;> rfl

end Scans

section Register
variable {t : UdpTable} {m : PortMap} (port : UInt16) (handler : Option UdpHandler)

theorem Represents.register (h : Represents t m) :
    (udpRegisterHandler t port handler).1 = (m.register port handler).1 ∧
      Represents (udpRegisterHandler t port handler).2 (m.register port handler).2 := by
  cases handler with
  | none =>
    rw [udpRegisterHandler, if_pos (Or.inr rfl)]
    exact ⟨rfl, h⟩
  | some handler =>
    rw [udpRegisterHandler, PortMap.register]
    by_cases h0 : port = 0
    · rw [if_pos (Or.inl h0), dif_neg fun hp => hp.1 h0]
      exact ⟨rfl, h⟩
    rw [if_neg (by simp [h0])]
    cases hp : t.entries.findIdx? fun e => e.valid && e.port == port with
    | some i =>
      obtain ⟨hi,hb,-⟩ := List.findIdx?_eq_some_iff_getElem.mp hp
      have hk := boundPort_eq.mpr hb
      have hr : m.HasRoom port :=
        Or.inl (h.mem_keys.mp (KeyedSlots.mem_keys.mpr ⟨_, List.getElem_mem hi, hk⟩))
      rw [dif_pos ⟨h0, hr⟩]
      have hslot : { t.entries.getD i {} with handler := some handler } =
          (⟨true, port, some handler⟩ : UdpHandlerEntry) := by
        rw [List.getD_eq_getElem _ _ hi]
        obtain ⟨hv,hport⟩ := Bool.and_eq_true_iff.mp hb
        simp only [hv, beq_iff_eq.mp hport]
      refine ⟨rfl, ?_⟩
      change Represents (t.set i { t.entries.getD i {} with handler := some handler }) _
      rw [hslot]
      exact h.fill h0 hr hi (Or.inl hk)
    | none =>
      have hmem := h.scan_port.mp hp
      cases hf : t.entries.findIdx? fun e => !e.valid with
      | some i =>
        obtain ⟨hi,hb,-⟩ := List.findIdx?_eq_some_iff_getElem.mp hf
        have hroom : m.ports.card < udpHandlerCapacity := by
          by_contra hn
          rw [h.scan_free.mpr hn] at hf
          cases hf
        rw [dif_pos ⟨h0, Or.inr hroom⟩]
        exact ⟨rfl, h.fill h0 (Or.inr hroom) hi
          (Or.inr ⟨boundPort_eq_none.mpr hb, fun hk => hmem (h.mem_keys.mp hk)⟩)⟩
      | none =>
        rw [dif_neg fun hr => hr.2.elim hmem (h.scan_free.mp hf)]
        exact ⟨rfl, h⟩

theorem udpRegisterHandler_failed (hf : (udpRegisterHandler t port handler).1 = false) :
    (udpRegisterHandler t port handler).2 = t := by
  unfold udpRegisterHandler at hf ⊢
  split at hf
  · rw [if_pos ‹_›]
  · rename_i hn
    rw [if_neg hn]
    split at hf
    · cases hf
    · split at hf
      · cases hf
      · rfl

end Register

/-! The calls in order, with the registrations that returned true and the clears. -/

inductive PortCall where
  | register (port : UInt16) (handler : Option UdpHandler)
  | clear
  /-- `srcIp` and `data` are null or point to an address and to `len` bytes. -/
  | packet (srcIp : Option Ip) (data : Option Buffer)

inductive PortEvent where
  | registered (port : UInt16) (handler : Option UdpHandler)
  | cleared

/-- `events` has the latest event first. -/
structure Traced where
  host : Host
  events : List PortEvent

/-- `udp_handle_packet` with its two null tests. -/
def udpHandlePointers (srcIp : Option Ip) (data : Option Buffer) (h : Host) :
    Except Fault (Bool × Host) :=
  match srcIp, data with
  | some srcIp, some f => udpHandlePacket srcIp f 0 f.size h
  | _, _ => .ok (false, h.count .droppedShort)

def Traced.perform (s : Traced) : PortCall → Except Fault Traced
  | .register port handler =>
    let (registered, t) := udpRegisterHandler s.host.udpTable port handler
    .ok ⟨{ s.host with udpTable := t },
      if registered then .registered port handler :: s.events else s.events⟩
  | .clear => .ok ⟨{ s.host with udpTable := udpClearHandlers }, .cleared :: s.events⟩
  | .packet srcIp data => do
    let (_, h) ← udpHandlePointers srcIp data s.host
    .ok { s with host := h }

/-- The handler most recently registered for the port since the last clear. -/
def latest (port : UInt16) : List PortEvent → Option UdpHandler
  | [] => none
  | .cleared :: _ => none
  | .registered p handler :: events => if port = p then handler else latest port events

def WellFormedUdp (f : Buffer) : Prop :=
  sizeofUdpHeader ≤ f.size ∧ sizeofUdpHeader ≤ (bswap16 (udpAt f 0).length).toNat ∧
    (bswap16 (udpAt f 0).length).toNat ≤ f.size

/-- The call of a handler with the datagram of `f`. -/
def datagramCall (srcIp : Ip) (f : Buffer) (handler : UdpHandler) : UdpCall :=
  ⟨handler, srcIp, bswap16 (udpAt f 0).srcPort,
    f.slice sizeofUdpHeader ((bswap16 (udpAt f 0).length).toNat-sizeofUdpHeader)⟩

section Dispatch
variable (srcIp : Ip) (f : Buffer) (h : Host)

/-- A well-formed datagram is dispatched once or, for want of a handler, not at all. -/
theorem udpHandlePacket_dispatch (hw : WellFormedUdp f) :
    ∃ h', udpHandlePacket srcIp f 0 f.size h =
        .ok ((h.udpTable.lookup (bswap16 (udpAt f 0).dstPort)).isSome, h') ∧
      h'.udpTable = h.udpTable ∧
      h'.calls = h.calls ++
        (h.udpTable.lookup (bswap16 (udpAt f 0).dstPort)).toList.map (datagramCall srcIp f) := by
  obtain ⟨hs,h8,hle⟩ := hw
  simp only [sizeofUdpHeader] at hs h8
  simp only [udpHandlePacket, sizeofUdpHeader]
  rw [if_neg (by omega), UdpHeader.read_ok f 0 (by omega), ok_bind, if_neg (by omega)]
  cases h.udpTable.lookup (bswap16 (udpAt f 0).dstPort) with
  | none => exact ⟨h, rfl, rfl, (List.append_nil _).symm⟩
  | some handler =>
    dsimp only
    rw [readBytes_ok f _ _ (by omega), ok_bind]
    refine ⟨_, rfl, ?_, ?_⟩
    · cases handler <;> rfl
    · cases handler <;> rfl

theorem udpHandlePacket_malformed (hw : ¬ WellFormedUdp f) :
    udpHandlePacket srcIp f 0 f.size h = .ok (false, h.count .droppedShort) := by
  simp only [WellFormedUdp, sizeofUdpHeader] at hw
  simp only [udpHandlePacket, sizeofUdpHeader]
  by_cases hs : f.size < 8
  · rw [if_pos hs]
  · rw [if_neg hs, UdpHeader.read_ok f 0 (by omega), ok_bind, if_pos (by omega)]

theorem udpHandlePointers_ok (srcIp : Option Ip) (data : Option Buffer) :
    ∃ r h', udpHandlePointers srcIp data h = .ok (r, h') ∧ h'.udpTable = h.udpTable := by
  cases srcIp with
  | none => exact ⟨_, _, rfl, rfl⟩
  | some srcIp =>
    cases data with
    | none => exact ⟨_, _, rfl, rfl⟩
    | some f =>
      by_cases hw : WellFormedUdp f
      · obtain ⟨h',hr,ht,-⟩ := udpHandlePacket_dispatch srcIp f h hw
        exact ⟨_, h', hr, ht⟩
      · exact ⟨_, _, udpHandlePacket_malformed srcIp f h hw, rfl⟩

end Dispatch

/-- The table holds a map whose handlers are the latest of the events. -/
def Traced.Ok (s : Traced) : Prop :=
  ∃ m : PortMap, Represents s.host.udpTable m ∧ ∀ port, m.handler port = latest port s.events

theorem register_handler {m : PortMap} {port : UInt16} {handler : Option UdpHandler}
    (hr : (m.register port handler).1 = true) (p : UInt16) :
    (m.register port handler).2.handler p = if p = port then handler else m.handler p := by
  cases handler with
  | none => cases hr
  | some handler =>
    rw [PortMap.register] at hr ⊢
    split at hr
    · rw [dif_pos ‹_›]
      rfl
    · cases hr

theorem register_failed {m : PortMap} {port : UInt16} {handler : Option UdpHandler}
    (hr : (m.register port handler).1 = false) : (m.register port handler).2 = m := by
  cases handler with
  | none => rfl
  | some handler =>
    rw [PortMap.register] at hr ⊢
    split at hr
    · cases hr
    · rw [dif_neg ‹_›]

theorem register_succeeds (m : PortMap) (port : UInt16) (handler : Option UdpHandler) :
    (m.register port handler).1 = true ↔ port ≠ 0 ∧ handler ≠ none ∧ m.HasRoom port := by
  cases handler with
  | none => simp [PortMap.register]
  | some handler =>
    rw [PortMap.register]
    split
    · simpa using ‹_ ∧ _›
    · simpa only [reduceCtorEq, ne_eq, not_false_eq_true, true_and, false_iff]

theorem Traced.perform_register (s : Traced) (port : UInt16) (handler : Option UdpHandler) :
    s.perform (.register port handler) =
      .ok ⟨{ s.host with udpTable := (udpRegisterHandler s.host.udpTable port handler).2 },
        if (udpRegisterHandler s.host.udpTable port handler).1 then
          .registered port handler :: s.events else s.events⟩ := rfl

theorem Traced.Ok.perform {s : Traced} (h : s.Ok) (c : PortCall) :
    ∃ t, s.perform c = .ok t ∧ t.Ok := by
  obtain ⟨m,hm,hl⟩ := h
  cases c with
  | clear => exact ⟨_, rfl, PortMap.empty, represents_cleared, fun _ => rfl⟩
  | packet srcIp data =>
    obtain ⟨r,h',hr,ht⟩ := udpHandlePointers_ok s.host srcIp data
    refine ⟨{ s with host := h' }, ?_, m, ?_, hl⟩
    · rw [Traced.perform, hr, ok_bind]
    · exact ht ▸ hm
  | register port handler =>
    obtain ⟨h1,hrep⟩ := hm.register port handler
    refine ⟨_, s.perform_register port handler, _, hrep, fun p => ?_⟩
    dsimp only
    cases hb : (m.register port handler).1 with
    | true =>
      rw [register_handler hb, h1, hb, if_pos rfl, latest, hl]
    | false =>
      rw [register_failed hb, h1, hb, if_neg Bool.false_ne_true, hl]

theorem Traced.Ok.run {s : Traced} (h : s.Ok) (calls : List PortCall) :
    ∃ t, calls.foldlM Traced.perform s = .ok t ∧ t.Ok := by
  induction calls generalizing s with
  | nil => exact ⟨s, rfl, h⟩
  | cons c calls ih =>
    obtain ⟨t,ht,hok⟩ := h.perform c
    obtain ⟨u,hu,hu'⟩ := ih hok
    refine ⟨u, ?_, hu'⟩
    rw [List.foldlM_cons, ht, ok_bind, hu]

/-- After any calls the table holds a map of at most 8 nonzero ports to the handlers most
recently registered since the last clear. A registration succeeds exactly for a nonzero
port, a handler and room, and changes that port only; a well-formed datagram is dispatched
once to the handler of its port, or to none. -/
theorem port_table (mac : Mac) (ip : Ip) (accepts : List Frame → Frame → Bool)
    (calls : List PortCall) :
    ∃ s, calls.foldlM Traced.perform ⟨Host.boot mac ip accepts, []⟩ = .ok s ∧ ∃ m : PortMap,
      (∀ p, s.host.udpTable.lookup p = m.handler p ∧ m.handler p = latest p s.events) ∧
      (∀ port handler, let r := udpRegisterHandler s.host.udpTable port handler
        (r.1 = true ↔ port ≠ 0 ∧ handler ≠ none ∧
          (port ∈ m.ports ∨ m.ports.card < udpHandlerCapacity)) ∧
        (r.1 = true → ∀ p, r.2.lookup p = if p = port then handler else m.handler p) ∧
        (r.1 = false → r.2 = s.host.udpTable)) ∧
      (∀ p, udpClearHandlers.lookup p = none) ∧
      ∀ srcIp f, WellFormedUdp f →
        ∃ h', udpHandlePacket srcIp f 0 f.size s.host =
            .ok ((m.handler (bswap16 (udpAt f 0).dstPort)).isSome, h') ∧
          h'.udpTable = s.host.udpTable ∧
          h'.calls = s.host.calls ++
            (m.handler (bswap16 (udpAt f 0).dstPort)).toList.map (datagramCall srcIp f) := by
  have hboot : Traced.Ok ⟨Host.boot mac ip accepts, []⟩ :=
    ⟨PortMap.empty, represents_cleared, fun _ => rfl⟩
  obtain ⟨s,hs,m,hm,hl⟩ := hboot.run calls
  refine ⟨s, hs, m, fun p => ⟨hm.handler p, hl p⟩, fun port handler => ?_, fun p => rfl,
    fun srcIp f hw => ?_⟩
  · obtain ⟨h1,hrep⟩ := hm.register port handler
    refine ⟨?_, fun hr p => ?_, udpRegisterHandler_failed port handler⟩
    · rw [h1]
      exact register_succeeds m port handler
    · rw [hrep.handler, register_handler (h1 ▸ hr)]
  · obtain ⟨h',hr,ht,hc⟩ := udpHandlePacket_dispatch srcIp f s.host hw
    rw [hm.handler] at hr hc
    exact ⟨h', hr, ht, hc⟩

end NetKernel.PortTables
