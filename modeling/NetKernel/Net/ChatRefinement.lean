import NetKernel.Lib.CountedRing
import NetKernel.Net.ChatQueue

/-! The chat rings as queues: what a conversation is, and that inbox and history
follow it through every sequence of calls. -/
namespace NetKernel.ChatRefinement
open Headers ChatQueue CountedRing

inductive ChatCall where
  | datagram (srcIp : Ip) (srcPort : UInt16) (payload : List UInt8)
  | recv (maxLen : Nat)
  | reset
deriving DecidableEq, Repr

/-- Performs the calls in order, with what each `net_chat_recv` returned and wrote. -/
def runCalls (s : ChatState) : List ChatCall → List (Bool × List UInt8) × ChatState
  | [] => ([], s)
  | .datagram srcIp srcPort payload :: calls =>
    runCalls (chatUdpHandler s srcIp srcPort payload) calls
  | .reset :: calls => runCalls netChatReset calls
  | .recv maxLen :: calls =>
    let (result, written, s) := netChatRecv s maxLen
    let (outputs, s) := runCalls s calls
    ((result, written) :: outputs, s)

/-! The conversation that the rings stand for. -/

/-- All messages since the reset, those not read yet, and those read. -/
structure Conversation where
  received : List ChatMessage
  unread : List ChatMessage
  delivered : List ChatMessage

namespace Conversation

def empty : Conversation := ⟨[], [], []⟩

/-- The oldest of eight unread messages gives way to a ninth. -/
def arrive (q : Conversation) (message : ChatMessage) : Conversation :=
  { q with
    received := q.received ++ [message]
    unread := pushLast netChatHistorySize q.unread message }

/-- The oldest unread message, as much of it as fits with a NUL. -/
def recv (q : Conversation) (maxLen : Nat) : Bool × List UInt8 × Conversation :=
  if maxLen = 0 then (false, [], q) else match q.unread with
  | [] => (false, [0], q)
  | message :: rest => (true, message.string.take (maxLen-1) ++ [0],
      { q with unread := rest, delivered := q.delivered ++ [message] })

def run (q : Conversation) : List ChatCall → List (Bool × List UInt8) × Conversation
  | [] => ([], q)
  | .datagram srcIp srcPort payload :: calls =>
    (q.arrive (chatMessage srcIp srcPort payload)).run calls
  | .reset :: calls => empty.run calls
  | .recv maxLen :: calls =>
    let (result, written, q) := q.recv maxLen
    let (outputs, q) := q.run calls
    ((result, written) :: outputs, q)

/-- Messages are read in the order of their arrival, each at most once. -/
def InOrder (q : Conversation) : Prop := (q.delivered ++ q.unread).Sublist q.received

theorem InOrder.arrive {q : Conversation} (h : q.InOrder) (message : ChatMessage) :
    (q.arrive message).InOrder := by
  refine ((List.Sublist.refl q.delivered).append (sublist_pushLast _ _ _)).trans ?_
  rw [← List.append_assoc]
  exact h.append (List.Sublist.refl _)

theorem InOrder.recv {q : Conversation} (h : q.InOrder) (maxLen : Nat) :
    (q.recv maxLen).2.2.InOrder := by
  unfold Conversation.recv
  split
  · exact h
  · split
    · exact h
    · rename_i message rest hq
      unfold InOrder at h ⊢
      rw [hq] at h
      simpa only [List.append_assoc, List.singleton_append] using h

end Conversation

/-! The rings. -/

/-- Where `net_chat_print_history` starts. -/
def historyStart (s : ChatState) : Nat :=
  if s.historyCount = netChatHistorySize then s.historyNext else 0

/-- A text of 128 bytes with a NUL, printable up to it. -/
structure StoredText (m : ChatMessage) : Prop where
  size : m.text.length = netChatTextSize
  terminated : m.string.length < netChatTextSize
  nul : m.text[m.string.length]? = some 0
  printable : ∀ ch ∈ m.string, isPrintable ch = true

theorem storedText_chatMessage (srcIp : Ip) (srcPort : UInt16) (payload : List UInt8) :
    StoredText (chatMessage srcIp srcPort payload) := by
  have hlen : ((payload.take 127).map printableOrDot).length = min 127 payload.length := by
    rw [List.length_map, List.length_take]
  refine ⟨?_, ?_, ?_, ?_⟩
  · rw [text_chatMessage, List.length_append, List.length_cons, List.length_replicate, hlen]
    simp only [netChatTextSize]
    omega
  · rw [string_sanitized, hlen]
    simp only [netChatTextSize]
    omega
  · rw [string_sanitized, text_chatMessage, List.getElem?_append_right (Nat.le_refl _),
      Nat.sub_self]
    rfl
  · rw [string_sanitized]
    intro ch hc
    obtain ⟨x,-,rfl⟩ := List.mem_map.mp hc
    exact isPrintable_printableOrDot x

theorem string_default : ChatMessage.string {} = [] := by
  simp [ChatMessage.string]

theorem storedText_default : StoredText {} where
  size := List.length_replicate
  terminated := by
    rw [string_default]
    decide
  nul := by
    rw [string_default]
    rfl
  printable ch hc := by
    rw [string_default] at hc
    exact absurd hc List.not_mem_nil

structure Refines (s : ChatState) (q : Conversation) : Prop where
  inboxSize : s.inbox.length = netChatHistorySize
  inbox : entries s.inbox {} s.inboxRead s.inboxCount = q.unread
  inboxRead : s.inboxRead < netChatHistorySize
  inboxWrite : s.inboxWrite = (s.inboxRead+s.inboxCount) % netChatHistorySize
  inboxCount : s.inboxCount ≤ netChatHistorySize
  historySize : s.history.length = netChatHistorySize
  history : entries s.history {} (historyStart s) s.historyCount =
    q.received.rtake netChatHistorySize
  historyNext : s.historyNext = (historyStart s+s.historyCount) % netChatHistorySize
  historyCount : s.historyCount ≤ netChatHistorySize
  valid : ∀ m ∈ q.received, m.valid = true
  stored : ∀ m ∈ s.messages, StoredText m

section Refines
variable {s : ChatState} {q : Conversation}

theorem refines_reset : Refines netChatReset .empty where
  inboxSize := rfl
  inbox := rfl
  inboxRead := by decide
  inboxWrite := rfl
  inboxCount := by decide
  historySize := rfl
  history := rfl
  historyNext := rfl
  historyCount := by decide
  valid m hm := absurd hm List.not_mem_nil
  stored m hm := by
    have : m = {} := by
      rw [ChatState.messages, List.mem_append] at hm
      exact hm.elim List.eq_of_mem_replicate List.eq_of_mem_replicate
    exact this ▸ storedText_default

theorem storeMessage_full (s : ChatState) (message : ChatMessage)
    (h : s.inboxCount = netChatHistorySize) :
    (storeMessage s message).inbox = s.inbox.set s.inboxWrite message ∧
    (storeMessage s message).inboxRead = (s.inboxRead+1) % netChatHistorySize ∧
    (storeMessage s message).inboxWrite = (s.inboxWrite+1) % netChatHistorySize ∧
    (storeMessage s message).inboxCount = netChatHistorySize := by
  simp only [storeMessage]
  split <;> simp [h]

theorem storeMessage_room (s : ChatState) (message : ChatMessage)
    (h : s.inboxCount ≠ netChatHistorySize) :
    (storeMessage s message).inbox = s.inbox.set s.inboxWrite message ∧
    (storeMessage s message).inboxRead = s.inboxRead ∧
    (storeMessage s message).inboxWrite = (s.inboxWrite+1) % netChatHistorySize ∧
    (storeMessage s message).inboxCount = s.inboxCount+1 := by
  simp only [storeMessage]
  split <;> simp

theorem storeMessage_history (s : ChatState) (message : ChatMessage) :
    (storeMessage s message).history = s.history.set s.historyNext message ∧
    (storeMessage s message).historyNext = (s.historyNext+1) % netChatHistorySize ∧
    (storeMessage s message).historyCount =
      if s.historyCount < netChatHistorySize then s.historyCount+1 else s.historyCount := by
  simp only [storeMessage]
  split <;> split <;> exact ⟨rfl, rfl, rfl⟩

theorem Refines.store_inbox (h : Refines s q) (message : ChatMessage) :
    (storeMessage s message).inbox.length = netChatHistorySize ∧
    entries (storeMessage s message).inbox {} (storeMessage s message).inboxRead
      (storeMessage s message).inboxCount = pushLast netChatHistorySize q.unread message ∧
    (storeMessage s message).inboxRead < netChatHistorySize ∧
    (storeMessage s message).inboxWrite = ((storeMessage s message).inboxRead+
      (storeMessage s message).inboxCount) % netChatHistorySize ∧
    (storeMessage s message).inboxCount ≤ netChatHistorySize := by
  have hsize := h.inboxSize
  have hread := h.inboxRead
  have hcount := h.inboxCount
  by_cases hfull : s.inboxCount = netChatHistorySize
  · obtain ⟨hi,hr,hw,hc⟩ := storeMessage_full s message hfull
    have hcell : s.inboxWrite = s.inboxRead % s.inbox.length := by
      rw [h.inboxWrite, hfull, hsize, Nat.add_mod_right]
    have hover := entries_overwrite s.inbox {} message s.inboxRead (by rw [hsize]; decide)
    rw [← hcell, hsize, ← hfull, h.inbox, hfull] at hover
    rw [hi, hr, hw, hc, h.inboxWrite, hfull]
    refine ⟨by rw [List.length_set, hsize], ?_, Nat.mod_lt _ (by decide), ?_, Nat.le_refl _⟩
    · rw [← hover, h.inboxWrite, hfull]
    · rw [Nat.mod_add_mod, Nat.mod_add_mod, Nat.add_right_comm]
  · obtain ⟨hi,hr,hw,hc⟩ := storeMessage_room s message hfull
    have hlt : s.inboxCount < netChatHistorySize := by omega
    have hpush := entries_push s.inbox {} message s.inboxRead s.inboxCount
      (by rw [hsize]; exact hlt)
    rw [hsize, ← h.inboxWrite, h.inbox] at hpush
    have hlen : q.unread.length = s.inboxCount := by rw [← h.inbox, length_entries]
    rw [hi, hr, hw, hc, pushLast_room (by omega)]
    refine ⟨by rw [List.length_set, hsize], hpush, hread, ?_, hlt⟩
    rw [h.inboxWrite, Nat.mod_add_mod, Nat.add_assoc]

theorem Refines.store_history (h : Refines s q) (message : ChatMessage) :
    (storeMessage s message).history.length = netChatHistorySize ∧
    entries (storeMessage s message).history {} (historyStart (storeMessage s message))
      (storeMessage s message).historyCount =
        (q.received ++ [message]).rtake netChatHistorySize ∧
    (storeMessage s message).historyNext = (historyStart (storeMessage s message)+
      (storeMessage s message).historyCount) % netChatHistorySize ∧
    (storeMessage s message).historyCount ≤ netChatHistorySize := by
  have hsize := h.historySize
  have hcount := h.historyCount
  have hnext := h.historyNext
  have hq := h.history
  obtain ⟨hi,hn,hc⟩ := storeMessage_history s message
  rw [rtake_append_singleton, ← hq]
  by_cases hfull : s.historyCount = netChatHistorySize
  · have hstart : historyStart s = s.historyNext := if_pos hfull
    have hlt : s.historyNext < netChatHistorySize := by
      rw [hnext]
      exact Nat.mod_lt _ (by decide)
    rw [if_neg (by omega), hfull] at hc
    have hstart' : historyStart (storeMessage s message) =
        (s.historyNext+1) % netChatHistorySize := by
      rw [historyStart, if_pos hc, hn]
    have hover := entries_overwrite s.history {} message s.historyNext (by rw [hsize]; decide)
    rw [hsize, Nat.mod_eq_of_lt hlt] at hover
    rw [hi, hn, hc, hstart', hstart, hfull, hover]
    refine ⟨by rw [List.length_set, hsize], rfl, ?_, Nat.le_refl _⟩
    rw [Nat.add_mod_right, Nat.mod_mod]
  · have hroom : s.historyCount < netChatHistorySize := by omega
    have hstart : historyStart s = 0 := if_neg hfull
    rw [hstart, Nat.zero_add, Nat.mod_eq_of_lt hroom] at hnext
    rw [if_pos hroom] at hc
    have hstart' : historyStart (storeMessage s message) = 0 := by
      rw [historyStart, hc, hn, hnext]
      split
      · rename_i hlast
        rw [hlast, Nat.mod_self]
      · rfl
    have hpush := entries_push s.history {} message 0 s.historyCount (by rw [hsize]; exact hroom)
    rw [hsize, Nat.zero_add, Nat.mod_eq_of_lt hroom] at hpush
    rw [hi, hn, hc, hstart', hstart, hnext, hpush,
      pushLast_room (by rw [length_entries]; exact hroom)]
    exact ⟨by rw [List.length_set, hsize], rfl, by rw [Nat.zero_add], hroom⟩

theorem Refines.arrive (h : Refines s q) (srcIp : Ip) (srcPort : UInt16) (payload : List UInt8) :
    Refines (chatUdpHandler s srcIp srcPort payload)
      (q.arrive (chatMessage srcIp srcPort payload)) := by
  obtain ⟨i1,i2,i3,i4,i5⟩ := h.store_inbox (chatMessage srcIp srcPort payload)
  obtain ⟨h1,h2,h3,h4⟩ := h.store_history (chatMessage srcIp srcPort payload)
  refine ⟨i1, i2, i3, i4, i5, h1, h2, h3, h4, fun m hm => ?_, fun m hm => ?_⟩
  · cases List.mem_append.mp hm with
    | inl hold => exact h.valid m hold
    | inr hnew => exact List.mem_singleton.mp hnew ▸ rfl
  · cases storeMessage_messages s _ m hm with
    | inl hold => exact h.stored m hold
    | inr hnew => exact hnew ▸ storedText_chatMessage srcIp srcPort payload

theorem Refines.recv (h : Refines s q) (maxLen : Nat) :
    (netChatRecv s maxLen).1 = (q.recv maxLen).1 ∧
    (netChatRecv s maxLen).2.1 = (q.recv maxLen).2.1 ∧
    Refines (netChatRecv s maxLen).2.2 (q.recv maxLen).2.2 := by
  have hsize := h.inboxSize
  have hread := h.inboxRead
  have hcount := h.inboxCount
  have hq := h.inbox
  by_cases hz : maxLen = 0
  · rw [netChatRecv, Conversation.recv, if_pos hz, if_pos hz]
    exact ⟨rfl, rfl, h⟩
  rw [netChatRecv, Conversation.recv, if_neg hz, if_neg hz]
  by_cases hempty : s.inboxCount = 0
  · rw [hempty, entries_zero] at hq
    rw [if_pos hempty, ← hq]
    exact ⟨rfl, rfl, h⟩
  obtain ⟨n,hn⟩ := Nat.exists_eq_succ_of_ne_zero hempty
  rw [hn, Nat.succ_eq_add_one, entries_succ, hsize, Nat.mod_eq_of_lt hread] at hq
  rw [if_neg hempty, ← hq]
  simp only [hn, Nat.succ_eq_add_one, Nat.add_sub_cancel, true_and]
  have hle : n ≤ netChatHistorySize := by omega
  constructor
  · rw [ChatMessage.string, List.take_takeWhile]
  · refine ⟨by rw [List.length_set, hsize], ?_, Nat.mod_lt _ (by decide), ?_, hle, h.historySize,
      h.history, h.historyNext, h.historyCount, h.valid, fun m hm => ?_⟩
    · -- the cell that is cleared holds none of the remaining messages
      rw [← hsize]
      apply entries_set
      intro i hi
      have hin : i < n := hi
      have hne := @add_mod_ne s.inbox.length 0 (i+1) s.inboxRead (by omega) (by omega)
      rw [Nat.add_zero, Nat.mod_eq_of_lt (by omega)] at hne
      rw [Nat.mod_add_mod, show s.inboxRead+1+i = s.inboxRead+(i+1) by omega]
      exact hne.symm
    · rw [h.inboxWrite, hn, Nat.mod_add_mod, Nat.succ_eq_add_one, Nat.add_assoc, Nat.add_comm 1 n]
    · have hm' := netChatRecv_messages s maxLen m
      rw [netChatRecv, if_neg hz, if_neg hempty, hn, Nat.succ_eq_add_one, Nat.add_sub_cancel] at hm'
      cases hm' hm with
      | inl hold => exact h.stored m hold
      | inr hnew => exact hnew ▸ storedText_default

theorem Refines.run (h : Refines s q) (hq : q.InOrder) (calls : List ChatCall) :
    (runCalls s calls).1 = (q.run calls).1 ∧ Refines (runCalls s calls).2 (q.run calls).2 ∧
      (q.run calls).2.InOrder := by
  induction calls generalizing s q with
  | nil => exact ⟨rfl, h, hq⟩
  | cons call calls ih =>
    cases call with
    | datagram srcIp srcPort payload =>
      exact ih (h.arrive srcIp srcPort payload) (hq.arrive _)
    | reset => exact ih refines_reset (List.Sublist.refl _)
    | recv maxLen =>
      obtain ⟨hresult,hwritten,hstep⟩ := h.recv maxLen
      obtain ⟨houtputs,hrest⟩ := ih hstep (hq.recv maxLen)
      refine ⟨?_, hrest⟩
      simp only [runCalls, Conversation.run, hresult, hwritten, houtputs]

def historyLine (m : ChatMessage) : Ip × UInt16 × List UInt8 := (m.srcIp, m.srcPort, m.string)

theorem Refines.printHistory (h : Refines s q) : netChatPrintHistory s =
    (q.received.rtake netChatHistorySize).map historyLine := by
  have hall : ∀ m ∈ q.received.rtake netChatHistorySize, m.valid = true :=
    fun m hm => h.valid m (List.mem_of_mem_drop hm)
  rw [← h.history] at hall ⊢
  rw [entries, List.map_map, h.historySize, ← List.filterMap_eq_map]
  refine List.filterMap_congr fun i hi => ?_
  have hv := hall _ (List.mem_map_of_mem hi)
  rw [h.historySize] at hv
  exact if_pos hv

theorem written_le (s : ChatState) (maxLen : Nat) : (netChatRecv s maxLen).2.1.length ≤ maxLen := by
  unfold netChatRecv
  split
  · exact Nat.zero_le _
  · split
    · simp only [List.length_singleton]
      omega
    · have := (List.takeWhile_prefix (p := (· ≠ 0))
        (l := ((s.inbox.getD s.inboxRead {}).text.take (maxLen-1)))).length_le
      simp only [List.length_append, List.length_singleton]
      rw [List.length_take] at this
      omega

theorem recv_failed {s : ChatState} {maxLen : Nat} (h : (netChatRecv s maxLen).1 = false) :
    (netChatRecv s maxLen).2.2 = s := by
  unfold netChatRecv at h ⊢
  by_cases hz : maxLen = 0
  · rw [if_pos hz]
  rw [if_neg hz] at h ⊢
  by_cases hempty : s.inboxCount = 0
  · rw [if_pos hempty]
  · rw [if_neg hempty] at h
    cases h

end Refines

structure Observes (s : ChatState) (q : Conversation) : Prop where
  history : netChatPrintHistory s = (q.received.rtake netChatHistorySize).map historyLine
  order : (q.delivered ++ q.unread).Sublist q.received
  bound : q.unread.length ≤ netChatHistorySize
  stored : ∀ m ∈ s.messages, StoredText m
  recv : ∀ maxLen, (netChatRecv s maxLen).1 = (q.recv maxLen).1 ∧
    (netChatRecv s maxLen).2.1 = (q.recv maxLen).2.1
  written : ∀ maxLen, (netChatRecv s maxLen).2.1.length ≤ maxLen
  failed : ∀ maxLen, (netChatRecv s maxLen).1 = false → (netChatRecv s maxLen).2.2 = s

/-- Inbox and history follow the conversation through every sequence of calls. -/
theorem chat_refines (calls : List ChatCall) :
    (runCalls netChatReset calls).1 = (Conversation.empty.run calls).1 ∧
    Observes (runCalls netChatReset calls).2 (Conversation.empty.run calls).2 := by
  obtain ⟨houtputs,h,horder⟩ := refines_reset.run (q := .empty) (List.Sublist.refl _) calls
  refine ⟨houtputs, h.printHistory, horder, ?_, h.stored, fun maxLen => ?_, written_le _,
    fun _ => recv_failed⟩
  · have hlen := h.inboxCount
    rwa [← h.inbox, length_entries]
  · exact ⟨(h.recv maxLen).1, (h.recv maxLen).2.1⟩

end NetKernel.ChatRefinement
