import NetKernel.Net.RxRing
import NetKernel.Net.TxRing

/-! Two guests on one link: the sender's transmit ring, its card, the wire, the receiver's
card and receive ring. Calls, cards and losses interleave in any order. -/
namespace NetKernel.Link
open FlatMemory IndexRing Slots Virtio Runs TxRing RxRing

/-- What a card writes into a buffer it holds, and how many bytes are there. -/
structure Filling where
  entry : Held
  bytes : List UInt8
  written : Nat
deriving DecidableEq, Repr

/-- `sent` counts the entries on the wire so far; `lost` tells that the wire has dropped a frame. -/
structure LinkState where
  tx : TxState
  rx : RxState
  sent : Nat
  wire : List TxRing.Frame
  filling : Option Filling
  lost : Bool

/-- The sending card puts the frame of its next entry on the wire, without the header. -/
def LinkState.send (s : LinkState) (e : Held) : LinkState :=
  { s with
    tx := s.tx.read e
    sent := s.sent+1
    wire := s.wire ++ [(s.tx.half.dma e.id).drop sizeofVirtioNetHdr] }

def LinkState.lose (s : LinkState) (i : Nat) : LinkState :=
  { s with wire := s.wire.eraseIdx i, lost := true }

/-- The receiving card writes `n` more bytes through the descriptor. -/
def LinkState.fill (s : LinkState) (x : Filling) (n : Nat) : LinkState :=
  let xs := (x.bytes.drop x.written).take n
  { s with
    rx := s.rx.write x.entry x.written xs
    filling := some { x with written := x.written+xs.length } }

def LinkState.finish (s : LinkState) (x : Filling) : LinkState :=
  { s with rx := s.rx.complete x.entry x.bytes.length, filling := none }

/-- The calls of either host one after the other. The sending card puts what it takes on the
wire in order, once, and returns it afterwards; the receiving card fills any buffer it holds. -/
inductive LinkStep : LinkState → LinkState → Prop
  | sendCall (s : LinkState) (data : Option TxRing.Frame) : s.tx.pc = .idle →
    LinkStep s { s with tx := s.tx.netSendRaw data }
  | sendAdvance (s : LinkState) : s.tx.pc ≠ .idle → LinkStep s { s with tx := s.tx.advance }
  | txTake (s : LinkState) : s.tx.dev.lastAvail ≠ s.tx.half.q.avail.idx →
    LinkStep s { s with tx := s.tx.take }
  | send (s : LinkState) (e : Held) : e ∈ s.tx.dev.held → e.index = s.sent →
    LinkStep s (s.send e)
  | txComplete (s : LinkState) (e : Held) (len : Nat) : e ∈ s.tx.dev.held → e.index < s.sent →
    LinkStep s { s with tx := s.tx.complete e len }
  | lose (s : LinkState) (i : Nat) : LinkStep s (s.lose i)
  | recvCall (s : LinkState) (out : Bool) (maxLen : Nat) : s.rx.pc = .idle →
    LinkStep s { s with rx := s.rx.netRecvRaw out maxLen }
  | recvAdvance (s : LinkState) : s.rx.pc ≠ .idle → LinkStep s { s with rx := s.rx.advance }
  | rxTake (s : LinkState) : s.rx.dev.lastAvail ≠ s.rx.half.q.avail.idx →
    LinkStep s { s with rx := s.rx.take }
  | accept (s : LinkState) (e : Held) (header frame : List UInt8) (rest : List TxRing.Frame) :
    s.filling = none → s.wire = frame :: rest → e ∈ s.rx.dev.held →
    header.length = sizeofVirtioNetHdr →
    LinkStep s { s with wire := rest, filling := some ⟨e, header ++ frame, 0⟩ }
  | fill (s : LinkState) (x : Filling) (n : Nat) : s.filling = some x → LinkStep s (s.fill x n)
  | finish (s : LinkState) (x : Filling) : s.filling = some x → x.written = x.bytes.length →
    LinkStep s (s.finish x)

/-- Both rings as `virtio_net_init_pci` leaves them, and an empty wire. -/
def linkSystem : System LinkState where
  Init s := txSystem.Init s.tx ∧ rxSystem.Init s.rx ∧ s.sent = 0 ∧ s.wire = [] ∧
    s.filling = none ∧ s.lost = false
  Step := LinkStep

/-! Views of a state. -/

/-- The frame that the receiving card is writing. -/
def LinkState.arriving (s : LinkState) : List TxRing.Frame :=
  (s.filling.map fun x => x.bytes.drop sizeofVirtioNetHdr).toList

def offered : TxPc → Option TxRing.Frame
  | .idle | .returning false _ => none
  | .reclaim data | .consume data | .header data _ | .copy data _ | .mark data _
  | .describe data _ | .offer data _ | .publish data _ | .returning true data => some data

/-- The frames that have come through, and whether any has been lost on the way. -/
structure Carried (lost : Bool) (through put : List TxRing.Frame) : Prop where
  inOrder : through.Sublist put
  all : lost = false → through = put

/-! The invariant. -/

variable {s t : LinkState} {r : RxState} {x : Filling} {e : Held}

/-- The bytes of a filling that are already in its buffer. -/
structure Filled (r : RxState) (x : Filling) : Prop where
  held : x.entry ∈ r.dev.held
  lower : sizeofVirtioNetHdr < x.bytes.length
  upper : x.bytes.length ≤ kVirtioBufferSize
  written : x.written ≤ x.bytes.length
  there : load r.half.mem (r.half.q.desc x.entry.id).addr x.written = x.bytes.take x.written

def AllSized (s : TxState) : Prop :=
  ∀ data, data ∈ s.accepted ∨ offered s.pc = some data → Sized data

/-- The card still holds every entry it has taken and not put on the wire. -/
def Waiting (sent : Nat) (d : Device) : Prop :=
  ∀ i, sent ≤ i → i < d.taken → ∃ e ∈ d.held, e.index = i

structure LinkInv (s : LinkState) : Prop where
  tx : TxInv s.tx
  rx : RxInv s.rx
  sized : AllSized s.tx
  sent : s.sent ≤ s.tx.published.length
  waiting : Waiting s.sent s.tx.dev
  carried : Carried s.lost (s.rx.completions ++ (s.arriving ++ s.wire))
    (s.tx.published.take s.sent)
  filled : ∀ x, s.filling = some x → Filled s.rx x

theorem Carried.snoc {lost : Bool} {through put : List TxRing.Frame}
    (h : Carried lost through put) (frame : TxRing.Frame) :
    Carried lost (through ++ [frame]) (put ++ [frame]) :=
  ⟨h.inOrder.append (.refl _), fun hl => by rw [h.all hl]⟩

theorem Carried.drop {lost : Bool} {through rest put : List TxRing.Frame}
    (h : Carried lost through put) (hr : rest.Sublist through) : Carried true rest put :=
  ⟨hr.trans h.inOrder, fun hl => by cases hl⟩

theorem AllSized.published {s : TxState} (h : AllSized s) {data : TxRing.Frame}
    (hd : data ∈ s.published) : Sized data := by
  cases List.mem_append.mp hd with
  | inl ha => exact h data (.inl ha)
  | inr hi =>
    refine h data (.inr ?_)
    unfold TxPc.inHand at hi
    split at hi
    · rename_i frame hpc
      rw [hpc, List.mem_singleton.mp hi]
      rfl
    · cases hi

/-! What the calls leave to the cards. -/

/-- What a step of `net_send_raw` may do: go on, and publish its frame. -/
structure Sends (u v : TxState) : Prop where
  dev : v.dev = u.dev
  published : ∃ more, v.published = u.published ++ more
  sized : AllSized u → AllSized v

theorem Sends.goto {u : TxState} (half : Half) (pc : TxPc) (hhand : pc.inHand = u.pc.inHand)
    (hoff : ∀ data, offered pc = some data → AllSized u → Sized data) :
    Sends u { u with half := half, pc := pc } := by
  refine ⟨rfl, ⟨[], by rw [published_goto u half pc hhand, List.append_nil]⟩, fun h data hd => ?_⟩
  obtain ha | ho := hd
  · exact h data (.inl ha)
  · exact hoff data ho h

theorem sends_netSendRaw {u : TxState} (hpc : u.pc = .idle) (data : Option TxRing.Frame) :
    Sends u (u.netSendRaw data) := by
  unfold TxState.netSendRaw
  split
  · rename_i hv
    refine .goto _ _ (by rw [hpc]; rfl) fun frame ho _ => ?_
    cases data with
    | none => cases hv
    | some data =>
      cases ho
      simp only [validData, Bool.and_eq_true, bne_iff_ne, decide_eq_true_eq] at hv
      exact ⟨Nat.pos_of_ne_zero hv.1, hv.2⟩
  · exact .goto _ _ (by rw [hpc]; rfl) fun frame ho _ => by cases ho

theorem sends_advance (u : TxState) : Sends u u.advance := by
  have hsame {pc : TxPc} (hoff : offered pc = offered u.pc) (data : TxRing.Frame)
      (ho : offered pc = some data) (h : AllSized u) : Sized data := h data (.inr (hoff ▸ ho))
  cases hpc : u.pc with
  | idle =>
    simp only [TxState.advance, hpc]
    exact .goto u.half u.pc rfl (hsame rfl)
  | reclaim data =>
    simp only [TxState.advance, hpc]
    split
    · exact .goto u.half _ (by rw [hpc]; rfl) (hsame (by rw [hpc]; rfl))
    · split
      · exact .goto u.half _ (by rw [hpc]; rfl) fun data ho _ => by cases ho
      · exact .goto u.half _ (by rw [hpc]; rfl) (hsame (by rw [hpc]; rfl))
  | consume | header | copy | mark | describe | offer =>
    simp only [TxState.advance, hpc]
    exact .goto _ _ (by rw [hpc]; rfl) (hsame (by rw [hpc]; rfl))
  | publish data slot =>
    simp only [TxState.advance, hpc]
    refine ⟨rfl, ⟨[data], ?_⟩, fun h frame hf => ?_⟩
    · simp only [TxState.published, hpc, TxPc.inHand, List.append_nil]
    · obtain ha | ho := hf
      · exact h frame (.inl ha)
      · exact h frame (.inr (by rw [hpc]; exact ho))
  | returning result data =>
    simp only [TxState.advance, hpc]
    cases result with
    | true =>
      refine ⟨rfl, ⟨[], ?_⟩, fun h frame hf => ?_⟩
      · simp only [TxState.published, hpc, TxPc.inHand, if_true]
      · obtain ha | ho := hf
        · simp only [if_true] at ha
          cases List.mem_append.mp ha with
          | inl hold => exact h frame (.inl hold)
          | inr hnew =>
            rw [List.mem_singleton.mp hnew]
            exact h data (.inr (by rw [hpc]; rfl))
        · cases ho
    | false =>
      refine ⟨rfl, ⟨[], ?_⟩, fun h frame hf => ?_⟩
      · simp only [TxState.published, hpc, TxPc.inHand, Bool.false_eq_true, if_false,
          List.append_nil]
      · obtain ha | ho := hf
        · simp only [Bool.false_eq_true, if_false] at ha
          exact h frame (.inl ha)
        · cases ho

/-- A step of `net_recv_raw` leaves the card's entries, their descriptors and memory alone. -/
structure LeavesCard (r r' : RxState) : Prop where
  mem : r'.half.mem = r.half.mem
  desc : r'.half.q.desc = r.half.q.desc
  dev : r'.dev = r.dev
  completions : r'.completions = r.completions

theorem recvAdvance_leaves (h : RxInv r) : LeavesCard r r.advance := by
  have hst := h.stage
  cases hpc : r.pc with
  | describe slot out =>
    rw [hpc] at hst
    obtain ⟨e,he,rfl,-⟩ := hst
    simp only [RxState.advance, hpc, h.described.describe (h.head_lt he)]
    exact ⟨rfl, rfl, rfl, rfl⟩
  | idle | copy | offer | publish | returning =>
    simp only [RxState.advance, hpc]
    exact ⟨rfl, rfl, rfl, rfl⟩
  | poll maxLen =>
    simp only [RxState.advance, hpc]
    split <;> exact ⟨rfl, rfl, rfl, rfl⟩
  | inspect maxLen =>
    rw [advance_inspect h hpc]
    exact ⟨rfl, rfl, rfl, rfl⟩

theorem netRecvRaw_leaves (r : RxState) (out : Bool) (maxLen : Nat) :
    LeavesCard r (r.netRecvRaw out maxLen) := by
  unfold RxState.netRecvRaw
  split <;> exact ⟨rfl, rfl, rfl, rfl⟩

theorem Filled.leaves {r' : RxState} (h : Filled r x) (hl : LeavesCard r r') : Filled r' x :=
  ⟨by rw [hl.dev]; exact h.held, h.lower, h.upper, h.written,
    by rw [hl.mem, hl.desc]; exact h.there⟩

/-! The steps. -/

theorem LinkInv.sender (h : LinkInv s) {u : TxState} (htx : TxInv u) (hs : Sends s.tx u) :
    LinkInv { s with tx := u } := by
  obtain ⟨more,hpub⟩ := hs.published
  refine ⟨htx, h.rx, hs.sized h.sized, ?_, hs.dev ▸ h.waiting, ?_, h.filled⟩
  · change s.sent ≤ u.published.length
    rw [hpub, List.length_append]
    exact Nat.le_add_right_of_le h.sent
  · change Carried s.lost _ (u.published.take s.sent)
    rw [hpub, List.take_append_of_le_length h.sent]
    exact h.carried

theorem LinkInv.receiver (h : LinkInv s) {r : RxState} (hrx : RxInv r)
    (hl : LeavesCard s.rx r) : LinkInv { s with rx := r } := by
  refine ⟨h.tx, hrx, h.sized, h.sent, h.waiting, ?_, fun x hx => (h.filled x hx).leaves hl⟩
  change Carried s.lost (r.completions ++ _) _
  rw [hl.completions]
  exact h.carried

theorem LinkInv.send (h : LinkInv s) (he : e ∈ s.tx.dev.held) (hi : e.index = s.sent) :
    LinkInv (s.send e) := by
  obtain ⟨data,hdata,hload⟩ := h.tx.delivery.held e he
  rw [hi] at hdata
  obtain ⟨hlt,hget⟩ := List.getElem?_eq_some_iff.mp hdata
  have hbytes : (s.tx.half.dma e.id).drop sizeofVirtioNetHdr = data := by
    rw [hload.dma, message]
    exact List.drop_left' List.length_replicate
  have hcarried := h.carried.snoc data
  rw [← hget, ← List.take_succ_eq_append_getElem hlt, List.append_assoc,
    List.append_assoc] at hcarried
  refine ⟨h.tx.read he, h.rx, h.sized, hlt, fun i hi => h.waiting i (Nat.le_of_succ_le hi), ?_,
    h.filled⟩
  rw [LinkState.send, hbytes, ← hget]
  exact hcarried

theorem LinkInv.lose (h : LinkInv s) (i : Nat) : LinkInv (s.lose i) :=
  ⟨h.tx, h.rx, h.sized, h.sent, h.waiting,
    h.carried.drop (((List.eraseIdx_sublist _ _).append_left _).append_left _), h.filled⟩

theorem LinkInv.txTake (h : LinkInv s) (hne : s.tx.dev.lastAvail ≠ s.tx.half.q.avail.idx) :
    LinkInv { s with tx := s.tx.take } := by
  refine ⟨h.tx.take hne, h.rx, h.sized, h.sent, fun i hlo hi => ?_, h.carried, h.filled⟩
  by_cases hlast : i = s.tx.dev.taken
  · exact ⟨_, List.mem_append_right _ List.mem_cons_self, hlast.symm⟩
  · obtain ⟨e,he,hei⟩ := h.waiting i hlo
      (Nat.lt_of_le_of_ne (Nat.le_of_lt_succ hi) hlast)
    exact ⟨e, List.mem_append_left _ he, hei⟩

theorem LinkInv.txComplete (h : LinkInv s) (he : e ∈ s.tx.dev.held) (hsent : e.index < s.sent)
    (len : Nat) : LinkInv { s with tx := s.tx.complete e len } := by
  refine ⟨h.tx.complete he len, h.rx, h.sized, h.sent, fun i hlo hi => ?_, h.carried, h.filled⟩
  change s.sent ≤ i at hlo
  obtain ⟨x,hx,hxi⟩ := h.waiting i hlo hi
  have hne : x ≠ e := by
    rintro rfl
    omega
  exact ⟨x, (List.mem_erase_of_ne hne).mpr hx, hxi⟩

theorem LinkInv.rxTake (h : LinkInv s) (hne : s.rx.dev.lastAvail ≠ s.rx.half.q.avail.idx) :
    LinkInv { s with rx := s.rx.take } := by
  refine ⟨h.tx, h.rx.take hne, h.sized, h.sent, h.waiting, h.carried, fun x hx => ?_⟩
  have hf := h.filled x hx
  exact ⟨List.mem_append_left _ hf.held, hf.lower, hf.upper, hf.written, hf.there⟩

theorem LinkInv.accept {header frame : List UInt8} {rest : List TxRing.Frame} (h : LinkInv s)
    (hnone : s.filling = none) (hwire : s.wire = frame :: rest) (he : e ∈ s.rx.dev.held)
    (hlen : header.length = sizeofVirtioNetHdr) :
    LinkInv { s with wire := rest, filling := some ⟨e, header ++ frame, 0⟩ } := by
  have hcarried := h.carried
  have hmem : frame ∈ s.tx.published.take s.sent := by
    refine h.carried.inOrder.subset (List.mem_append_right _ (List.mem_append_right _ ?_))
    rw [hwire]
    exact List.mem_cons_self
  obtain ⟨hpos,hmax⟩ := h.sized.published (List.mem_of_mem_take hmem)
  refine ⟨h.tx, h.rx, h.sized, h.sent, h.waiting, ?_, fun x hx => ?_⟩
  · rw [hwire, LinkState.arriving, hnone] at hcarried
    rw [LinkState.arriving]
    simp only [Option.map_some, Option.toList_some, List.drop_left' hlen]
    exact hcarried
  · cases hx
    have hsum : (header ++ frame).length = sizeofVirtioNetHdr+frame.length := by
      rw [List.length_append, hlen]
    refine ⟨he, ?_, ?_, Nat.zero_le _, rfl⟩
    · rw [hsum]
      exact Nat.lt_add_of_pos_right hpos
    · rw [hsum]
      exact Nat.add_le_add_left hmax 12

theorem desc_held (h : RxInv r) (he : e ∈ r.dev.held) : r.half.q.desc e.id =
    ⟨(r.half.buffers e.id).pa, kVirtioBufferSize, virtqDescFWrite, 0⟩ :=
  h.described _ (h.lt_of_inFlight (.inr (List.mem_map_of_mem he)))

theorem Filled.fits (h : RxInv r) (hf : Filled r x) (n : Nat) :
    x.written+((x.bytes.drop x.written).take n).length ≤ (r.half.q.desc x.entry.id).len := by
  rw [desc_held h hf.held]
  have hupper := hf.upper
  have hwritten := hf.written
  rw [List.length_take, List.length_drop]
  change _ ≤ kVirtioBufferSize
  omega

theorem Filled.write (hf : Filled r x) (n : Nat) :
    Filled (r.write x.entry x.written ((x.bytes.drop x.written).take n))
      { x with written := x.written+((x.bytes.drop x.written).take n).length } := by
  have hlen : ((x.bytes.drop x.written).take n).length ≤ x.bytes.length-x.written := by
    rw [List.length_take, List.length_drop]
    exact Nat.min_le_right ..
  have hmore : (x.bytes.drop x.written).take n =
      (x.bytes.drop x.written).take ((x.bytes.drop x.written).take n).length := by
    rw [List.length_take, ← List.take_eq_take_min]
  generalize (x.bytes.drop x.written).take n = xs at hlen hmore ⊢
  refine ⟨hf.held, hf.lower, hf.upper, ?_, ?_⟩
  · have hwritten := hf.written
    change x.written+xs.length ≤ x.bytes.length
    omega
  · change load (store r.half.mem ((r.half.q.desc x.entry.id).addr+x.written) xs)
      (r.half.q.desc x.entry.id).addr (x.written+xs.length) = x.bytes.take (x.written+xs.length)
    rw [load_add, load_store, load_store_apart (.inl (Nat.le_refl _)), hf.there, List.take_add,
      ← hmore]

theorem LinkInv.fill (h : LinkInv s) (hx : s.filling = some x) (n : Nat) :
    LinkInv (s.fill x n) := by
  have hf := h.filled x hx
  have hcarried := h.carried
  refine ⟨h.tx, h.rx.write hf.held (hf.fits h.rx n), h.sized, h.sent, h.waiting, ?_, fun y hy => ?_⟩
  · rw [LinkState.arriving, hx] at hcarried
    exact hcarried
  · cases hy
    exact hf.write n

theorem Filled.all (hf : Filled r x) (hall : x.written = x.bytes.length) :
    load r.half.mem ((r.half.q.desc x.entry.id).addr+sizeofVirtioNetHdr)
      (x.bytes.length-sizeofVirtioNetHdr) = x.bytes.drop sizeofVirtioNetHdr := by
  have hthere := hf.there
  rw [hall, List.take_length, ← Nat.add_sub_cancel' (Nat.le_of_lt hf.lower), load_add] at hthere
  conv_rhs => rw [← hthere]
  exact (List.drop_left' length_load).symm

theorem LinkInv.finish (h : LinkInv s) (hx : s.filling = some x)
    (hall : x.written = x.bytes.length) : LinkInv (s.finish x) := by
  have hf := h.filled x hx
  have hcarried := h.carried
  have hupper : x.bytes.length ≤ (s.rx.half.q.desc x.entry.id).len := by
    rw [desc_held h.rx hf.held]
    exact hf.upper
  refine ⟨h.tx, h.rx.complete hf.held hf.lower hupper, h.sized, h.sent, h.waiting, ?_,
    fun y hy => by cases hy⟩
  rw [LinkState.arriving, hx] at hcarried
  change Carried s.lost ((s.rx.completions ++ [_]) ++ ([] ++ s.wire)) _
  rw [hf.all hall, List.append_assoc]
  exact hcarried

theorem linkInv_step (h : LinkInv s) (hs : LinkStep s t) : LinkInv t := by
  cases hs with
  | sendCall data hpc => exact h.sender (h.tx.netSendRaw hpc data) (sends_netSendRaw hpc data)
  | sendAdvance => exact h.sender h.tx.advance (sends_advance _)
  | txTake hne => exact h.txTake hne
  | send e he hi => exact h.send he hi
  | txComplete e len he hsent => exact h.txComplete he hsent len
  | lose i => exact h.lose i
  | recvCall out maxLen hpc =>
    exact h.receiver (h.rx.netRecvRaw hpc out maxLen) (netRecvRaw_leaves _ out maxLen)
  | recvAdvance => exact h.receiver h.rx.advance (recvAdvance_leaves h.rx)
  | rxTake hne => exact h.rxTake hne
  | accept e header frame rest hnone hwire he hlen => exact h.accept hnone hwire he hlen
  | fill x n hx => exact h.fill hx n
  | finish x hx hall => exact h.finish hx hall

theorem linkInv_invariant : linkSystem.Invariant LinkInv where
  init s := by
    rintro ⟨htx,hrx,hsent,hwire,hfilling,hlost⟩
    refine ⟨txInv_invariant.init _ htx, rxInv_invariant.init _ hrx, ?_, ?_, ?_, ?_, ?_⟩
    · obtain ⟨half,-,he⟩ := htx
      rw [he]
      intro data hd
      obtain hd | hd := hd <;> cases hd
    · rw [hsent]
      exact Nat.zero_le _
    · obtain ⟨half,-,he⟩ := htx
      rw [he]
      intro i _ hi
      cases hi
    · obtain ⟨half,-,he⟩ := hrx
      rw [he, hsent, hwire, LinkState.arriving, hfilling]
      exact ⟨.refl _, fun _ => rfl⟩
    · intro x hx
      rw [hfilling] at hx
      cases hx
  step _ _ := linkInv_step

/-! What the link promises. -/

theorem LinkInv.unsent (h : LinkInv s) :
    (s.tx.published.drop s.sent).length ≤ virtioNetQueueSize ∧
      (s.sent < s.tx.published.length → s.tx.dev.lastAvail ≠ s.tx.half.q.avail.idx ∨
        ∃ e ∈ s.tx.dev.held, e.index = s.sent) := by
  have hposted := h.tx.delivery.posted.length_eq
  have htaken := h.tx.delivery.taken
  rw [List.length_drop] at hposted
  constructor
  · have hsub : List.range' s.sent (s.tx.dev.taken-s.sent) ⊆ s.tx.dev.held.map Held.index := by
      intro i hi
      obtain ⟨hlo,hhi⟩ := List.mem_range'_1.mp hi
      obtain ⟨e,he,rfl⟩ := h.waiting i hlo (by omega)
      exact List.mem_map_of_mem he
    have hcard := (List.subperm_of_subset List.nodup_range' hsub).length_le
    rw [List.length_range', List.length_map] at hcard
    have hroom := h.tx.length_le
    rw [h.tx.pending, TxState.heldIds, List.length_map] at hroom
    rw [List.length_drop]
    omega
  · intro hsent
    by_cases ht : s.sent < s.tx.dev.taken
    · exact .inr (h.waiting _ (Nat.le_refl _) ht)
    · refine .inl fun heq => ?_
      rw [TxState.posted, length_posted, heq, ahead_self h.tx.availLt] at hposted
      omega

/-- The receiving host gets frames that the sending host has published, each at most once, in
their order and unaltered. A frame that the wire has not lost is received or on its way, and
the card can go on with the next one. -/
theorem live_link (h : linkSystem.Reachable s) :
    (s.rx.received ++ s.rx.pc.inHand).Sublist s.tx.published ∧
      (s.lost = false → s.tx.published = s.rx.received ++ (s.rx.pc.inHand ++
        (s.rx.half.q.returned.map (frameOf s.rx.half) ++ (s.arriving ++ (s.wire ++
          s.tx.published.drop s.sent))))) ∧
      (s.tx.published.drop s.sent).length ≤ virtioNetQueueSize ∧
      (s.sent < s.tx.published.length → s.tx.dev.lastAvail ≠ s.tx.half.q.avail.idx ∨
        ∃ e ∈ s.tx.dev.held, e.index = s.sent) := by
  have hi := linkInv_invariant.reachable h
  have hcarried := hi.carried
  rw [hi.rx.frames] at hcarried
  refine ⟨?_, fun hlost => ?_, hi.unsent⟩
  · have hfront : (s.rx.received ++ s.rx.pc.inHand).Sublist (s.rx.received ++ (s.rx.pc.inHand ++
        s.rx.half.q.returned.map (frameOf s.rx.half)) ++ (s.arriving ++ s.wire)) :=
      ((List.sublist_append_left ..).append_left _).trans (List.sublist_append_left ..)
    exact (hfront.trans hcarried.inOrder).trans (List.take_sublist ..)
  · have hall := hcarried.all hlost
    conv_lhs => rw [← List.take_append_drop s.sent s.tx.published, ← hall]
    simp only [List.append_assoc]

def quietLink : LinkState where
  tx := ⟨initTxBuffersLocked freshHalf, .idle, .reset, [], []⟩
  rx := ⟨initRxBuffersLocked freshHalf, .idle, .reset, [], []⟩
  sent := 0
  wire := []
  filling := none
  lost := false

def header : List UInt8 := List.replicate 12 9

def onWire : LinkState :=
  let s := { quietLink with tx := quietLink.tx.netSendRaw (some [1, 2, 3]) }
  let s := (fun s : LinkState => { s with tx := s.tx.advance })^[7] s
  LinkState.send { s with tx := s.tx.take } ⟨0, 0⟩

def arrived : LinkState :=
  let s := { onWire with rx := onWire.rx.take }
  let x : Filling := ⟨⟨0, 0⟩, header ++ [1, 2, 3], 0⟩
  let s := { s with wire := [], filling := some x }
  let s := (s.fill x 4).fill { x with written := 4 } 20
  s.finish { x with written := 15 }

def delivered : LinkState :=
  let s := { arrived with rx := arrived.rx.netRecvRaw true 2048 }
  (fun s : LinkState => { s with rx := s.rx.advance })^[7] s

theorem onWire_reachable : linkSystem.Reachable onWire := by
  have hinit : linkSystem.Reachable quietLink :=
    .init ⟨⟨freshHalf, freshHalf_apart, rfl⟩, ⟨freshHalf, freshHalf_apart, rfl⟩, rfl, rfl, rfl, rfl⟩
  have hcall := hinit.step (.sendCall _ (some [1, 2, 3]) rfl)
  have hput := System.reachable_iterate LinkStep.sendAdvance hcall 7 (by decide +kernel)
  exact (hput.step (.txTake _ (by decide +kernel))).step
    (.send _ ⟨0, 0⟩ (by decide +kernel) (by decide +kernel))

theorem arrived_reachable : linkSystem.Reachable arrived := by
  have htake := onWire_reachable.step (.rxTake _ (by decide +kernel))
  have haccept := htake.step (.accept _ ⟨0, 0⟩ header [1, 2, 3] [] (by decide +kernel)
    (by decide +kernel) (by decide +kernel) (by decide))
  have hfill := (haccept.step (.fill _ _ 4 rfl)).step (.fill _ _ 20 rfl)
  exact hfill.step (.finish _ _ (by decide +kernel) (by decide +kernel))

theorem live_link_delivered : delivered.rx.received = [[1, 2, 3]] ∧
    (delivered.rx.received ++ delivered.rx.pc.inHand).Sublist delivered.tx.published := by
  have hcall := arrived_reachable.step (.recvCall _ true 2048 (by decide +kernel))
  have hr := System.reachable_iterate LinkStep.recvAdvance hcall 7 (by decide +kernel)
  exact ⟨by decide +kernel, (live_link (s := delivered) hr).1⟩

end NetKernel.Link
