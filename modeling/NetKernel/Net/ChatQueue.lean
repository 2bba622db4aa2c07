import NetKernel.Net.Headers

/-! Chat messages: the two sanitisers, the history ring and the unread inbox. -/
namespace NetKernel.ChatQueue
open Headers

abbrev netChatTextSize : Nat := 128
abbrev netChatHistorySize : Nat := 8
def netChatPort : UInt16 := 4390

def isPrintable (ch : UInt8) : Bool := 32 ≤ ch && ch ≤ 126

/-- `is_printable(ch) ? ch : '.'`. -/
def printableOrDot (ch : UInt8) : UInt8 := if isPrintable ch then ch else 46

/-- Writes at most 127 sanitised bytes and a NUL at the start of `out`. -/
def sanitizePayload (out payload : List UInt8) : List UInt8 × Nat :=
  let limit := netChatTextSize-1
  let toCopy := if payload.length < limit then payload.length else limit
  ((payload.take toCopy).map printableOrDot ++ [0] ++ out.drop (toCopy+1), toCopy)

/-- The loop of `sanitize_cstr`: stops at a NUL or when `limit` bytes are copied.
The end of the list is the terminator of the C string. -/
def sanitizeChars : Nat → List UInt8 → List UInt8
  | 0, _ => []
  | _+1, [] => []
  | limit+1, ch :: rest => if ch = 0 then [] else printableOrDot ch :: sanitizeChars limit rest

def sanitizeCstr (out text : List UInt8) : List UInt8 × Nat :=
  let chars := sanitizeChars (netChatTextSize-1) text
  (chars ++ [0] ++ out.drop (chars.length+1), chars.length)

structure ChatMessage where
  valid : Bool := false
  srcIp : Ip := ⟨0, 0, 0, 0⟩
  srcPort : UInt16 := 0
  text : List UInt8 := List.replicate netChatTextSize 0
deriving DecidableEq, Repr

def ChatMessage.string (m : ChatMessage) : List UInt8 := m.text.takeWhile (· ≠ 0)

structure ChatState where
  history : List ChatMessage
  inbox : List ChatMessage
  historyNext : Nat
  historyCount : Nat
  inboxRead : Nat
  inboxWrite : Nat
  inboxCount : Nat
deriving DecidableEq, Repr

def netChatReset : ChatState :=
  ⟨List.replicate netChatHistorySize {}, List.replicate netChatHistorySize {}, 0, 0, 0, 0, 0⟩

def storeMessage (s : ChatState) (message : ChatMessage) : ChatState :=
  let s := { s with
    history := s.history.set s.historyNext message
    historyNext := (s.historyNext+1) % netChatHistorySize }
  let s := if s.historyCount < netChatHistorySize then
    { s with historyCount := s.historyCount+1 } else s
  -- the oldest unread message is dropped when the inbox is full
  let s := if s.inboxCount = netChatHistorySize then
    { s with
      inboxRead := (s.inboxRead+1) % netChatHistorySize
      inboxCount := s.inboxCount-1 } else s
  { s with
    inbox := s.inbox.set s.inboxWrite message
    inboxWrite := (s.inboxWrite+1) % netChatHistorySize
    inboxCount := s.inboxCount+1 }

/-- The message `chat_udp_handler` builds. -/
def chatMessage (srcIp : Ip) (srcPort : UInt16) (payload : List UInt8) : ChatMessage where
  valid := true
  srcIp := srcIp
  srcPort := srcPort
  text := (sanitizePayload (List.replicate netChatTextSize 0) payload).1

def chatUdpHandler (s : ChatState) (srcIp : Ip) (srcPort : UInt16) (payload : List UInt8) :
    ChatState :=
  storeMessage s (chatMessage srcIp srcPort payload)

/-- `net_chat_recv(out, max_len)`: the result, the bytes written at `out`, the new state.
A null `out` is refused where a `max_len` of 0 is, with nothing written. -/
def netChatRecv (s : ChatState) (maxLen : Nat) : Bool × List UInt8 × ChatState :=
  if maxLen = 0 then (false, [], s)
  else if s.inboxCount = 0 then (false, [0], s)
  else
    let message := s.inbox.getD s.inboxRead {}
    let out := (message.text.take (maxLen-1)).takeWhile (· ≠ 0)
    (true, out ++ [0], { s with
      inbox := s.inbox.set s.inboxRead {}
      inboxRead := (s.inboxRead+1) % netChatHistorySize
      inboxCount := s.inboxCount-1 })

/-- The lines of `net_chat_print_history`: sender, port and text of each message. -/
def netChatPrintHistory (s : ChatState) : List (Ip × UInt16 × List UInt8) :=
  let start := if s.historyCount = netChatHistorySize then s.historyNext else 0
  (List.range s.historyCount).filterMap fun i =>
    let message := s.history.getD ((start+i) % netChatHistorySize) {}
    if message.valid then some (message.srcIp, message.srcPort, message.string) else none

theorem mem_set_cases {α : Type*} {l : List α} {i : Nat} {a b : α} (h : b ∈ l.set i a) :
    b ∈ l ∨ b = a :=
  List.mem_or_eq_of_mem_set h

def ChatState.messages (s : ChatState) : List ChatMessage := s.history ++ s.inbox

theorem storeMessage_messages (s : ChatState) (message m : ChatMessage)
    (h : m ∈ (storeMessage s message).messages) : m ∈ s.messages ∨ m = message := by
  have hh : (storeMessage s message).history = s.history.set s.historyNext message := by
    simp only [storeMessage]; split <;> split <;> rfl
  have hi : ∃ i, (storeMessage s message).inbox = s.inbox.set i message := by
    refine ⟨s.inboxWrite, ?_⟩
    simp only [storeMessage]; split <;> split <;> rfl
  obtain ⟨i,hi⟩ := hi
  simp only [ChatState.messages, hh, hi, List.mem_append] at h ⊢
  rcases h with h | h
  · rcases mem_set_cases h with h | h
    · exact Or.inl (Or.inl h)
    · exact Or.inr h
  · rcases mem_set_cases h with h | h
    · exact Or.inl (Or.inr h)
    · exact Or.inr h

theorem netChatRecv_messages (s : ChatState) (maxLen : Nat) (m : ChatMessage)
    (h : m ∈ (netChatRecv s maxLen).2.2.messages) : m ∈ s.messages ∨ m = {} := by
  unfold netChatRecv at h
  split at h
  · exact Or.inl h
  · split at h
    · exact Or.inl h
    · simp only [ChatState.messages, List.mem_append] at h ⊢
      rcases h with h | h
      · exact Or.inl (Or.inl h)
      · rcases mem_set_cases h with h | h
        · exact Or.inl (Or.inr h)
        · exact Or.inr h

/-! Sanitised text. The two sanitisers are written separately; on a text that the
first has produced the second only copies. -/

def chatText (text : List UInt8) : List UInt8 :=
  ((text.takeWhile (· ≠ 0)).take (netChatTextSize-1)).map printableOrDot

theorem sanitizeChars_eq (limit : Nat) (text : List UInt8) :
    sanitizeChars limit text = ((text.takeWhile (· ≠ 0)).take limit).map printableOrDot := by
  induction limit generalizing text with
  | zero => simp [sanitizeChars]
  | succ limit ih =>
    cases text with
    | nil => simp [sanitizeChars]
    | cons ch rest =>
      by_cases hz : ch = 0
      · simp [sanitizeChars, hz]
      · simp [sanitizeChars, hz, ih]

theorem isPrintable_printableOrDot (ch : UInt8) : isPrintable (printableOrDot ch) = true := by
  unfold printableOrDot
  split
  · assumption
  · rfl

theorem printableOrDot_of_printable (ch : UInt8) (h : isPrintable ch = true) :
    printableOrDot ch = ch := by
  rw [printableOrDot, if_pos h]

theorem ne_zero_of_printable (ch : UInt8) (h : isPrintable ch = true) : ch ≠ 0 := by
  rintro rfl
  exact absurd h (by decide)

theorem chatText_printable (text : List UInt8) : ∀ ch ∈ chatText text, isPrintable ch = true := by
  intro ch hc
  obtain ⟨x,-,rfl⟩ := List.mem_map.mp hc
  exact isPrintable_printableOrDot x

theorem length_chatText (text : List UInt8) : (chatText text).length ≤ 127 := by
  simp only [chatText, List.length_map, List.length_take]
  exact Nat.min_le_left _ _

theorem text_chatMessage (srcIp : Ip) (srcPort : UInt16) (payload : List UInt8) :
    (chatMessage srcIp srcPort payload).text = (payload.take 127).map printableOrDot ++
      0 :: List.replicate (127-min 127 payload.length) 0 := by
  have hn : (if payload.length < netChatTextSize-1 then payload.length
      else netChatTextSize-1) = min 127 payload.length := by
    have : netChatTextSize-1 = 127 := rfl
    split <;> omega
  have htake : payload.take (min 127 payload.length) = payload.take 127 := by
    rw [← List.take_take, List.take_length]
  simp only [chatMessage, sanitizePayload, hn, htake, List.drop_replicate, List.append_assoc,
    List.singleton_append, netChatTextSize]
  rw [show 128-(min 127 payload.length+1) = 127-min 127 payload.length by omega]

theorem string_sanitized (srcIp : Ip) (srcPort : UInt16) (payload : List UInt8) :
    (chatMessage srcIp srcPort payload).string = (payload.take 127).map printableOrDot := by
  rw [ChatMessage.string, text_chatMessage, List.takeWhile_append_of_pos]
  · simp
  · intro ch hc
    obtain ⟨x,-,rfl⟩ := List.mem_map.mp hc
    simpa using ne_zero_of_printable _ (isPrintable_printableOrDot x)

theorem string_chatMessage (srcIp : Ip) (srcPort : UInt16) (payload : List UInt8)
    (hl : payload.length ≤ 127) (hp : ∀ ch ∈ payload, isPrintable ch = true) :
    (chatMessage srcIp srcPort payload).string = payload := by
  calc (chatMessage srcIp srcPort payload).string
      = payload.map printableOrDot := by
        rw [string_sanitized, List.take_of_length_le hl]
    _ = payload.map id :=
        List.map_congr_left fun ch hc => printableOrDot_of_printable ch (hp ch hc)
    _ = payload := List.map_id payload

end NetKernel.ChatQueue
