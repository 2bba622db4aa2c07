import NetKernel.Net.ArpCache
import NetKernel.Net.ChatQueue

/-! The state of one network stack and its leaf operations: packet counters, the
UDP port table, handler calls and raw transmission. -/
namespace NetKernel.Hosts
open Headers Buffers ArpCaches ChatQueue

abbrev Frame := List UInt8

abbrev virtioNetMaxFrameSize : Nat := 2048
abbrev udpHandlerCapacity : Nat := 8

inductive NetStatCounter where
  | rawRx | rawTx | arpRx | arpTx | ipv4Rx | ipv4Tx | icmpRx | icmpTx | udpRx | udpTx
  | droppedShort | droppedBadChecksum | droppedNotForMe | droppedUnknownEthertype
  | droppedUnknownIpv4Protocol
deriving DecidableEq, Repr

def NetStats := NetStatCounter → Nat

/-- A non-null handler pointer: the chat handler or one of an application. -/
inductive UdpHandler where
  | chatUdpHandler
  | application (id : Nat)
deriving DecidableEq, Repr

structure UdpHandlerEntry where
  valid : Bool := false
  port : UInt16 := 0
  handler : Option UdpHandler := none
deriving DecidableEq, Repr

structure UdpTable where
  entries : List UdpHandlerEntry
  size : entries.length = udpHandlerCapacity
deriving DecidableEq

structure UdpCall where
  handler : UdpHandler
  srcIp : Ip
  srcPort : UInt16
  payload : List UInt8
deriving DecidableEq, Repr

/-- `accepts` is the raw backend: whether it takes a frame after those already
offered to it. `offered` lists the frames handed to `net_send_raw`, `sent` those
it accepted, `calls` the handler calls; all three only grow. -/
structure Host where
  myMac : Mac
  myIp : Ip
  arpCache : ArpCache
  udpTable : UdpTable
  chat : ChatState
  stats : NetStats
  accepts : List Frame → Frame → Bool
  offered : List Frame
  sent : List Frame
  calls : List UdpCall

def netStatsReset : NetStats := fun _ => 0

/-- `net_stats_increment`. -/
def Host.count (h : Host) (c : NetStatCounter) : Host :=
  { h with stats := fun d => if d = c then (h.stats d+1) % 2^64 else h.stats d }

def udpClearHandlers : UdpTable where
  entries := List.replicate udpHandlerCapacity {}
  size := List.length_replicate

def Host.boot (mac : Mac) (ip : Ip) (accepts : List Frame → Frame → Bool) : Host where
  myMac := mac
  myIp := ip
  arpCache := arpCacheReset
  udpTable := udpClearHandlers
  chat := netChatReset
  stats := netStatsReset
  accepts := accepts
  offered := []
  sent := []
  calls := []

def defaultMac : Mac := ⟨0x52, 0x54, 0x00, 0x12, 0x34, 0x56⟩
def defaultIp : Ip := ⟨10, 0, 2, 15⟩

def UdpTable.set (t : UdpTable) (i : Nat) (e : UdpHandlerEntry) : UdpTable where
  entries := t.entries.set i e
  size := by rw [List.length_set, t.size]

def udpRegisterHandler (t : UdpTable) (port : UInt16) (handler : Option UdpHandler) :
    Bool × UdpTable :=
  if port = 0 ∨ handler = none then (false, t)
  else match t.entries.findIdx? fun e => e.valid && e.port == port with
    | some i => (true, t.set i { t.entries.getD i {} with handler := handler })
    | none => match t.entries.findIdx? fun e => !e.valid with
      | some i => (true, t.set i ⟨true, port, handler⟩)
      | none => (false, t)

/-- The lookup loop of `udp_handle_packet`; a null handler counts as none. -/
def UdpTable.lookup (t : UdpTable) (port : UInt16) : Option UdpHandler :=
  (t.entries.find? fun e => e.valid && e.port == port).bind (·.handler)

/-- `handler(src_ip, src_port, payload, payload_len)`. -/
def Host.invoke (h : Host) (handler : UdpHandler) (srcIp : Ip) (srcPort : UInt16)
    (payload : List UInt8) : Host :=
  let h := { h with calls := h.calls ++ [⟨handler, srcIp, srcPort, payload⟩] }
  match handler with
  | .chatUdpHandler => { h with chat := chatUdpHandler h.chat srcIp srcPort payload }
  | .application _ => h

/-- `net_send_raw`: a frame of a legal length goes to the backend. -/
def netSendRaw (h : Host) (data : Frame) : Bool × Host :=
  let offered := { h with offered := h.offered ++ [data] }
  if data.length = 0 ∨ virtioNetMaxFrameSize < data.length then (false, offered)
  else if h.accepts h.offered data then
    (true, { offered with sent := h.sent ++ [data] }.count .rawTx)
  else (false, offered)

/-! What each leaf operation leaves alone. -/

section Fields
variable (h : Host) (c : NetStatCounter)
@[simp] theorem count_myMac : (h.count c).myMac = h.myMac := rfl
@[simp] theorem count_myIp : (h.count c).myIp = h.myIp := rfl
@[simp] theorem count_arpCache : (h.count c).arpCache = h.arpCache := rfl
@[simp] theorem count_udpTable : (h.count c).udpTable = h.udpTable := rfl
@[simp] theorem count_chat : (h.count c).chat = h.chat := rfl
@[simp] theorem count_accepts : (h.count c).accepts = h.accepts := rfl
@[simp] theorem count_offered : (h.count c).offered = h.offered := rfl
@[simp] theorem count_sent : (h.count c).sent = h.sent := rfl
@[simp] theorem count_calls : (h.count c).calls = h.calls := rfl
end Fields

theorem counts_sends (h : Host) (cs : List NetStatCounter) :
    (cs.foldl Host.count h).offered = h.offered ∧ (cs.foldl Host.count h).sent = h.sent := by
  induction cs generalizing h with
  | nil => exact ⟨rfl, rfl⟩
  | cons c cs ih => exact ih (h.count c)

/-- The identity, table, cache, chat state and calls that sending never touches. -/
structure SameReceiver (h h' : Host) : Prop where
  myMac : h'.myMac = h.myMac
  myIp : h'.myIp = h.myIp
  udpTable : h'.udpTable = h.udpTable
  chat : h'.chat = h.chat
  calls : h'.calls = h.calls

theorem SameReceiver.refl (h : Host) : SameReceiver h h := ⟨rfl, rfl, rfl, rfl, rfl⟩

theorem SameReceiver.trans {a b c : Host} (h : SameReceiver a b) (k : SameReceiver b c) :
    SameReceiver a c :=
  ⟨k.myMac.trans h.myMac, k.myIp.trans h.myIp, k.udpTable.trans h.udpTable,
    k.chat.trans h.chat, k.calls.trans h.calls⟩

theorem sameReceiver_count (h : Host) (c : NetStatCounter) : SameReceiver h (h.count c) :=
  ⟨rfl, rfl, rfl, rfl, rfl⟩

theorem netSendRaw_sameReceiver (h : Host) (data : Frame) :
    SameReceiver h (netSendRaw h data).2 := by
  unfold netSendRaw
  split
  · exact ⟨rfl, rfl, rfl, rfl, rfl⟩
  · split <;> exact ⟨rfl, rfl, rfl, rfl, rfl⟩

theorem netSendRaw_sent (h : Host) (data : Frame) :
    (netSendRaw h data).2.sent = if (netSendRaw h data).1 then h.sent ++ [data] else h.sent := by
  unfold netSendRaw
  split
  · rfl
  · split <;> rfl

end NetKernel.Hosts
