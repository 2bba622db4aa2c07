import NetKernel.Lib.Runs
import NetKernel.Lib.Slots
import NetKernel.Net.Virtio

/-! The live transmit ring: `net_send_raw` under `g_net.lock`, one access to shared
memory at a time, against a device that takes and returns entries in between. -/
namespace NetKernel.TxRing
open FlatMemory IndexRing Slots Virtio Runs

abbrev Frame := List UInt8

/-- Where the call that holds `g_net.lock` stands. -/
inductive TxPc where
  | idle
  | reclaim (data : Frame)
  | consume (data : Frame)
  | header (data : Frame) (slot : Nat)
  | copy (data : Frame) (slot : Nat)
  | mark (data : Frame) (slot : Nat)
  | describe (data : Frame) (slot : Nat)
  | offer (data : Frame) (slot : Nat)
  | publish (data : Frame) (slot : Nat)
  | returning (result : Bool) (data : Frame)
deriving DecidableEq, Repr

/-- One read by the device through the descriptor of an entry it holds. -/
structure Reading where
  index : Nat
  bytes : List UInt8
deriving DecidableEq, Repr

/-- `accepted` lists the frames for which `net_send_raw` has returned true. -/
structure TxState where
  half : Half
  pc : TxPc
  dev : Device
  accepted : List Frame
  reads : List Reading

/-- The entry checks of `net_send_raw`, `none` being the null pointer. -/
def validData (data : Option Frame) : Bool :=
  match data with
  | none => false
  | some data => data.length != 0 && data.length ≤ virtioNetMaxFrameSize

/-- `net_send_raw` up to the lock. -/
def TxState.netSendRaw (s : TxState) (data : Option Frame) : TxState :=
  if validData data then { s with pc := .reclaim (data.getD []) }
  else { s with pc := .returning false (data.getD []) }

/-- The next step of the call: the code of `virtio_send_raw_locked` in its order. The
test that leaves the reclaim loop and the slot search, which touches nothing the
device sees, are one step. -/
def TxState.advance (s : TxState) : TxState :=
  match s.pc with
  | .idle => s
  | .reclaim data =>
    if s.half.q.completed then { s with pc := .consume data }
    else match findFreeVirtioTxSlotLocked s.half with
      | none => { s with pc := .returning false data }
      | some slot => { s with pc := .header data slot }
  | .consume data => { s with half := reclaimOne s.half, pc := .reclaim data }
  | .header data slot =>
    { s with half := s.half.fill slot 0 (virtioNetHdr virtioNetHdrGsoNone), pc := .copy data slot }
  | .copy data slot =>
    { s with half := s.half.fill slot sizeofVirtioNetHdr data, pc := .mark data slot }
  | .mark data slot =>
    { s with half := s.half.mark slot (sizeofVirtioNetHdr+data.length), pc := .describe data slot }
  | .describe data slot =>
    { s with
      half := s.half.describe slot (sizeofVirtioNetHdr+data.length) 0
      pc := .offer data slot }
  | .offer data slot =>
    { s with half := { s.half with q := s.half.q.offer slot }, pc := .publish data slot }
  | .publish data _ =>
    { s with
      half := { s.half with q := { s.half.q.publish with
        pending := bump indexSpace s.half.q.pending } }
      pc := .returning true data }
  | .returning result data =>
    { s with pc := .idle, accepted := if result then s.accepted ++ [data] else s.accepted }

def TxState.take (s : TxState) : TxState := { s with dev := s.dev.take s.half.q }

def TxState.read (s : TxState) (h : Held) : TxState :=
  { s with reads := s.reads ++ [⟨h.index, s.half.dma h.id⟩] }

def TxState.complete (s : TxState) (h : Held) (len : Nat) : TxState :=
  { s with
    half := { s.half with q := s.half.q.complete h.id len }
    dev := { s.dev with held := s.dev.held.erase h } }

/-- Calls start one after the other, as the lock makes them; the device takes what is
published, reads what it holds as often as it likes and returns it in any order. -/
inductive TxStep : TxState → TxState → Prop
  | call (s : TxState) (data : Option Frame) : s.pc = .idle → TxStep s (s.netSendRaw data)
  | advance (s : TxState) : s.pc ≠ .idle → TxStep s s.advance
  | take (s : TxState) : s.dev.lastAvail ≠ s.half.q.avail.idx → TxStep s s.take
  | read (s : TxState) (h : Held) : h ∈ s.dev.held → TxStep s (s.read h)
  | complete (s : TxState) (h : Held) (len : Nat) : h ∈ s.dev.held → TxStep s (s.complete h len)

/-- The ring as `init_tx_buffers_locked` leaves it, over any memory. -/
def txSystem : System TxState where
  Init s := ∃ h : Half, Apart h.buffers ∧ s = ⟨initTxBuffersLocked h, .idle, .reset, [], []⟩
  Step := TxStep

/-! Views of a state. -/

def TxState.posted (s : TxState) : List Nat := s.half.q.posted s.dev.lastAvail

def TxState.heldIds (s : TxState) : List Nat := s.dev.held.map Held.id

def TxState.completed (s : TxState) : List Nat := s.half.q.returned.map VirtioNetUsedElem.id

/-- The slot a call has marked in use and not published yet. -/
def TxPc.marked : TxPc → List Nat
  | .describe _ slot | .offer _ slot | .publish _ slot => [slot]
  | _ => []

/-- The frame a call has published and not returned for yet. -/
def TxPc.inHand : TxPc → List Frame
  | .returning true data => [data]
  | _ => []

def TxState.published (s : TxState) : List Frame := s.accepted ++ s.pc.inHand

/-- A zero header and the frame. -/
def message (data : Frame) : List UInt8 := List.replicate sizeofVirtioNetHdr 0 ++ data

/-- The device owns a slot from its publication to its completion. -/
def TxState.InFlight (s : TxState) (k : Nat) : Prop := k ∈ s.posted ∨ k ∈ s.heldIds

/-- The places that driver and device share. -/
inductive Shared where
  | buffer (slot : Nat)
  | desc (slot : Nat)
  | availCell (cell : Nat)
  | availIdx
deriving DecidableEq, Repr

def TxState.writes (s : TxState) : Option Shared :=
  match s.pc with
  | .header _ slot | .copy _ slot => some (.buffer slot)
  | .describe _ slot => some (.desc slot)
  | .offer _ _ => some (.availCell (s.half.q.avail.idx % virtioNetQueueSize))
  | .publish _ _ => some .availIdx
  | _ => none

/-! The invariant. -/

/-- A slot whose descriptor and buffer hold a frame. -/
structure Loaded (h : Half) (k : Nat) (data : Frame) : Prop where
  fits : data.length ≤ virtioNetMaxFrameSize
  desc : h.q.desc k = ⟨(h.buffers k).pa, sizeofVirtioNetHdr+data.length, 0, 0⟩
  bytes : load h.mem (h.buffers k).pa (sizeofVirtioNetHdr+data.length) = message data

variable {h h' : Half} {k slot : Nat} {data : Frame} {s : TxState}

theorem Loaded.dma (hl : Loaded h k data) : h.dma k = message data := by
  rw [Half.dma, hl.desc, hl.bytes]

theorem Loaded.congr (hl : Loaded h k data) (hd : h'.q.desc k = h.q.desc k)
    (hp : (h'.buffers k).pa = (h.buffers k).pa)
    (hm : ∀ i < pageSize, h'.mem ((h.buffers k).pa+i) = h.mem ((h.buffers k).pa+i)) :
    Loaded h' k data := by
  refine ⟨hl.fits, by rw [hd, hp, hl.desc], ?_⟩
  rw [hp, ← hl.bytes]
  have hf : data.length ≤ 2048 := hl.fits
  refine load_congr fun i (hi : i < 12+data.length) => hm i ?_
  exact (show i < 4096 by omega)

/-- The slots with `in_use` set, by where they are. -/
def TxState.circulating (s : TxState) : List Nat :=
  s.pc.marked ++ (s.posted ++ (s.heldIds ++ s.completed))

def Sized (data : Frame) : Prop := 0 < data.length ∧ data.length ≤ virtioNetMaxFrameSize

/-- What a call has done so far. -/
def Stage (h : Half) : TxPc → Prop
  | .idle | .returning _ _ => True
  | .reclaim data => Sized data
  | .consume data => Sized data ∧ h.q.usedConsume ≠ h.q.used.idx
  | .header data k => Sized data ∧ k < virtioNetQueueSize ∧ (h.buffers k).inUse = false
  | .copy data k => (Sized data ∧ k < virtioNetQueueSize ∧ (h.buffers k).inUse = false) ∧
      load h.mem (h.buffers k).pa sizeofVirtioNetHdr = List.replicate sizeofVirtioNetHdr 0
  | .mark data k => (Sized data ∧ k < virtioNetQueueSize ∧ (h.buffers k).inUse = false) ∧
      load h.mem (h.buffers k).pa (sizeofVirtioNetHdr+data.length) = message data
  | .describe data k => Sized data ∧
      load h.mem (h.buffers k).pa (sizeofVirtioNetHdr+data.length) = message data
  | .offer data k => Loaded h k data
  | .publish data k => Loaded h k data ∧
      h.q.avail.ring (h.q.avail.idx % virtioNetQueueSize) = k

/-- What the device has been offered, holds and has read are the published frames. -/
structure Delivery (h : Half) (d : Device) (published : List Frame) (posted : List Nat)
    (reads : List Reading) : Prop where
  taken : d.taken ≤ published.length
  posted : List.Forall₂ (Loaded h) posted (published.drop d.taken)
  held : ∀ e ∈ d.held, ∃ data, published[e.index]? = some data ∧ Loaded h e.id data
  reads : ∀ r ∈ reads, ∃ data, published[r.index]? = some data ∧ r.bytes = message data

theorem Delivery.congr {d : Device} {published : List Frame} {posted : List Nat}
    {reads : List Reading} (hd : Delivery h d published posted reads)
    (hload : ∀ k data, k ∈ posted ∨ k ∈ d.held.map Held.id → Loaded h k data → Loaded h' k data) :
    Delivery h' d published posted reads := by
  refine ⟨hd.taken, ?_, fun e he => ?_, hd.reads⟩
  · obtain ⟨hlen,hget⟩ := List.forall₂_iff_get.mp hd.posted
    exact List.forall₂_iff_get.mpr ⟨hlen, fun i h1 h2 =>
      hload _ _ (Or.inl (List.getElem_mem h1)) (hget i h1 h2)⟩
  · obtain ⟨data,hdata,hl⟩ := hd.held e he
    exact ⟨data, hdata, hload _ _ (Or.inr (List.mem_map_of_mem he)) hl⟩

structure TxInv (s : TxState) : Prop where
  apart : Apart s.half.buffers
  availLt : s.half.q.avail.idx < indexSpace
  usedLt : s.half.q.used.idx < indexSpace
  consumeLt : s.half.q.usedConsume < indexSpace
  lastLt : s.dev.lastAvail < indexSpace
  slots : Circulation virtioNetQueueSize (fun k => (s.half.buffers k).inUse) s.circulating
  pending : s.half.q.pending = s.posted.length+(s.heldIds.length+s.completed.length)
  ahead : ahead indexSpace s.half.q.usedConsume s.half.q.avail.idx = s.half.q.pending
  delivery : Delivery s.half s.dev s.published s.posted s.reads
  stage : Stage s.half s.pc

theorem TxInv.length_le (h : TxInv s) :
    s.pc.marked.length+s.half.q.pending ≤ virtioNetQueueSize := by
  have hl := h.slots.length_le
  simp only [TxState.circulating, List.length_append] at hl
  rw [h.pending]
  omega

theorem TxInv.inFlight (h : TxInv s) (hf : s.InFlight k) :
    k < virtioNetQueueSize ∧ (s.half.buffers k).inUse = true ∧ k ∉ s.pc.marked := by
  have hm : k ∈ s.posted ++ (s.heldIds ++ s.completed) := by
    cases hf with
    | inl hp => exact List.mem_append_left _ hp
    | inr hh => exact List.mem_append_right _ (List.mem_append_left _ hh)
  obtain ⟨hk,hu⟩ := (h.slots.mem k).mp (List.mem_append_right _ hm)
  exact ⟨hk, hu, fun hn => (List.nodup_append.mp h.slots.nodup).2.2 k hn k hm rfl⟩

theorem Loaded.of_pa (hl : Loaded h k data) (hd : h'.q.desc = h.q.desc) (hm : h'.mem = h.mem)
    (hp : ∀ j, (h'.buffers j).pa = (h.buffers j).pa) : Loaded h' k data :=
  hl.congr (by rw [hd]) (hp k) fun _ _ => by rw [hm]

/-! The steps of a call. -/

theorem published_goto (s : TxState) (half : Half) (pc : TxPc) (hhand : pc.inHand = s.pc.inHand) :
    TxState.published { s with half := half, pc := pc } = s.published := by
  simp only [TxState.published, hhand]

theorem TxInv.local (h : TxInv s) (half : Half) (pc : TxPc)
    (hq : ∃ desc, half.q = { s.half.q with desc := desc }) (hbuf : half.buffers = s.half.buffers)
    (hmark : pc.marked = s.pc.marked) (hhand : pc.inHand = s.pc.inHand)
    (hload : ∀ k data, s.InFlight k → Loaded s.half k data → Loaded half k data)
    (hstage : Stage half pc) : TxInv { s with half := half, pc := pc } := by
  obtain ⟨desc,hq⟩ := hq
  have hpost : TxState.posted { s with half := half, pc := pc } = s.posted := by
    simp only [TxState.posted, hq, VirtioQueue.posted]
  have hcomp : TxState.completed { s with half := half, pc := pc } = s.completed := by
    simp only [TxState.completed, hq, VirtioQueue.returned]
  have hpub := published_goto s half pc hhand
  exact {
    apart := hbuf ▸ h.apart
    availLt := by rw [hq]; exact h.availLt
    usedLt := by rw [hq]; exact h.usedLt
    consumeLt := by rw [hq]; exact h.consumeLt
    lastLt := h.lastLt
    slots := by
      rw [TxState.circulating, hpost, hcomp, hmark, hbuf]
      exact h.slots
    pending := by
      rw [hpost, hcomp, hq]
      exact h.pending
    ahead := by rw [hq]; exact h.ahead
    delivery := by
      rw [hpost, hpub]
      exact h.delivery.congr hload
    stage := hstage }

theorem TxInv.goto (h : TxInv s) (pc : TxPc) (hmark : pc.marked = s.pc.marked)
    (hhand : pc.inHand = s.pc.inHand) (hstage : Stage s.half pc) : TxInv { s with pc := pc } :=
  h.local s.half pc ⟨_, rfl⟩ rfl hmark hhand (fun _ _ _ hl => hl) hstage

theorem TxInv.fill (h : TxInv s) (pc : TxPc) (off : Nat) (xs : List UInt8) (hk : k < 8)
    (hf : (s.half.buffers k).inUse = false) (hfit : off+xs.length ≤ pageSize)
    (hmark : pc.marked = s.pc.marked) (hhand : pc.inHand = s.pc.inHand)
    (hstage : Stage (s.half.fill k off xs) pc) :
    TxInv { s with half := s.half.fill k off xs, pc := pc } := by
  refine h.local _ pc ⟨_, rfl⟩ rfl hmark hhand (fun j data hj hl => ?_) hstage
  obtain ⟨hj,hu,-⟩ := h.inFlight hj
  have hne : j ≠ k := by
    rintro rfl
    rw [hf] at hu
    cases hu
  refine hl.congr rfl rfl fun i hi => ?_
  cases h.apart j k hj hk hne with
  | inl ha => exact store_of_lt (by omega)
  | inr ha => exact store_of_ge (by omega)

/-- The slot search fails when every slot circulates, and finds a free one otherwise. -/
theorem TxInv.findFree_none (h : TxInv s) (hmark : s.pc.marked = [])
    (hn : findFreeVirtioTxSlotLocked s.half = none) : s.half.q.pending = virtioNetQueueSize := by
  have hle := h.length_le
  rw [hmark, List.length_nil, Nat.zero_add] at hle
  refine Nat.le_antisymm hle ?_
  unfold findFreeVirtioTxSlotLocked at hn
  by_cases hp : virtioNetQueueSize ≤ s.half.q.pending
  · exact hp
  rw [if_neg hp, List.find?_eq_none] at hn
  have hall : (List.range virtioNetQueueSize).countP (fun k => (s.half.buffers k).inUse) =
      virtioNetQueueSize := by
    rw [List.countP_eq_length.mpr fun k hk => by simpa using hn k hk, List.length_range]
  rw [h.slots.count] at hall
  simp only [TxState.circulating, hmark, List.nil_append, List.length_append] at hall
  rw [h.pending, hall]

theorem findFree_some (hs : findFreeVirtioTxSlotLocked h = some slot) :
    slot < virtioNetQueueSize ∧ (h.buffers slot).inUse = false := by
  unfold findFreeVirtioTxSlotLocked at hs
  split at hs
  · cases hs
  · have hm := List.mem_of_find?_eq_some hs
    have hp := List.find?_some hs
    exact ⟨List.mem_range.mp hm, by simpa using hp⟩

theorem TxInv.consume (h : TxInv s) (hpc : s.pc = .consume data) : TxInv s.advance := by
  have hst := h.stage
  rw [hpc] at hst
  obtain ⟨hd,hne⟩ := hst
  have hwin := congrArg (List.map VirtioNetUsedElem.id) (returned_pop h.consumeLt h.usedLt hne)
  rw [List.map_cons] at hwin
  generalize hrest : List.map VirtioNetUsedElem.id s.half.q.skip.returned = rest at hwin
  generalize hx : s.half.q.usedElem.id = x at hwin
  change s.completed = x :: rest at hwin
  have hcirc : Circulation virtioNetQueueSize (fun k => (s.half.buffers k).inUse)
      (x :: (s.posted ++ (s.heldIds ++ rest))) := by
    refine h.slots.perm ?_
    rw [TxState.circulating, hpc, hwin]
    change (s.posted ++ (s.heldIds ++ x :: rest)).Perm _
    rw [← List.append_assoc, ← List.append_assoc]
    exact List.perm_middle
  obtain ⟨hx8,hxu⟩ := (hcirc.mem x).mp List.mem_cons_self
  have hxs : x % indexSpace = x := Nat.mod_eq_of_lt (Nat.lt_trans hx8 (by decide))
  have hpend := h.pending
  rw [hwin, List.length_cons] at hpend
  have hpos : 0 < s.half.q.pending := by omega
  have hadv : s.advance = { s with
      half := { s.half with
        buffers := Function.update s.half.buffers x { s.half.buffers x with inUse := false, len := 0 }
        q := { s.half.q.skip with pending := s.half.q.pending-1 } }
      pc := .reclaim data } := by
    simp only [TxState.advance, hpc, reclaimOne, hx, hxs, if_pos (And.intro hx8 hxu), if_pos hpos]
    rfl
  have hcomp : s.advance.completed = rest := by
    rw [hadv]
    exact hrest
  have hpa (j : Nat) := update_pa (b := s.half.buffers) (x := x)
    (c := { s.half.buffers x with inUse := false, len := 0 }) rfl j
  have hahead := h.ahead
  rw [ahead_bump_lo h.consumeLt h.availLt (fun he => by
    rw [he, ahead_self h.availLt] at hahead
    omega)] at hahead
  refine {
    apart := by rw [hadv]; exact apart_congr h.apart hpa
    availLt := by rw [hadv]; exact h.availLt
    usedLt := by rw [hadv]; exact h.usedLt
    consumeLt := by rw [hadv]; exact bump_lt (by decide) _
    lastLt := by rw [hadv]; exact h.lastLt
    slots := ?_
    pending := ?_
    ahead := by rw [hadv]; exact Nat.eq_sub_of_add_eq hahead
    delivery := ?_
    stage := by rw [hadv]; exact hd }
  · rw [TxState.circulating, hcomp, hadv]
    change Circulation _ (fun k => (Function.update s.half.buffers x _ k).inUse)
      (s.posted ++ (s.heldIds ++ rest))
    rw [update_inUse]
    exact hcirc.release
  · rw [hcomp, hadv]
    change s.half.q.pending-1 = s.posted.length+(s.heldIds.length+rest.length)
    omega
  · rw [hadv, published_goto s _ _ (by rw [hpc]; rfl)]
    exact h.delivery.congr fun _ _ _ hl => hl.of_pa rfl rfl hpa

theorem TxInv.mark (h : TxInv s) (hpc : s.pc = .mark data slot) : TxInv s.advance := by
  have hst := h.stage
  rw [hpc] at hst
  obtain ⟨⟨hd,hk,hf⟩,hb⟩ := hst
  have hadv : s.advance = { s with
      half := s.half.mark slot (sizeofVirtioNetHdr+data.length), pc := .describe data slot } := by
    simp only [TxState.advance, hpc]
  have hpa (j : Nat) : ((s.half.mark slot (sizeofVirtioNetHdr+data.length)).buffers j).pa =
      (s.half.buffers j).pa := by
    simp only [Half.mark]
    exact update_pa (by rfl) j
  have hslots := h.slots.claim hk hf
  rw [TxState.circulating, hpc] at hslots
  rw [hadv]
  exact {
    apart := apart_congr h.apart hpa
    availLt := h.availLt
    usedLt := h.usedLt
    consumeLt := h.consumeLt
    lastLt := h.lastLt
    slots := by
      change Circulation _ (fun k => (Function.update s.half.buffers slot _ k).inUse) _
      rw [update_inUse]
      exact hslots
    pending := h.pending
    ahead := h.ahead
    delivery := by
      rw [published_goto s _ _ (by rw [hpc]; rfl)]
      exact h.delivery.congr fun _ _ _ hl => hl.of_pa rfl rfl hpa
    stage := by
      refine ⟨hd, ?_⟩
      rw [hpa slot]
      exact hb }

theorem TxInv.describe (h : TxInv s) (hpc : s.pc = .describe data slot) : TxInv s.advance := by
  have hst := h.stage
  rw [hpc] at hst
  obtain ⟨hd,hb⟩ := hst
  have hadv : s.advance = { s with
      half := s.half.describe slot (sizeofVirtioNetHdr+data.length) 0, pc := .offer data slot } := by
    simp only [TxState.advance, hpc]
  rw [hadv]
  refine h.local _ _ ⟨_, rfl⟩ rfl (by rw [hpc]; rfl) (by rw [hpc]; rfl) (fun j data' hj hl => ?_)
    ⟨hd.2, Function.update_self .., hb⟩
  have hnot := (h.inFlight hj).2.2
  rw [hpc] at hnot
  have hne : j ≠ slot := fun he => hnot (List.mem_singleton.mpr he)
  exact hl.congr (Function.update_of_ne hne _ _) rfl fun _ _ => rfl

theorem TxInv.room (h : TxInv s) (hmark : s.pc.marked = [slot]) :
    s.posted.length < virtioNetQueueSize := by
  have hl := h.length_le
  rw [hmark, h.pending, List.length_singleton] at hl
  omega

theorem TxInv.offer (h : TxInv s) (hpc : s.pc = .offer data slot) : TxInv s.advance := by
  have hst := h.stage
  rw [hpc] at hst
  have hadv : s.advance = { s with
      half := { s.half with q := s.half.q.offer slot }, pc := .publish data slot } := by
    simp only [TxState.advance, hpc]
  have hpost : s.advance.posted = s.posted := by
    rw [hadv]
    exact posted_offer h.lastLt h.availLt (h.room (by rw [hpc]; rfl)) slot
  have hload (j : Nat) (data' : Frame) (hl : Loaded s.half j data') :
      Loaded { s.half with q := s.half.q.offer slot } j data' := hl.of_pa rfl rfl fun _ => rfl
  have hslots := h.slots
  have hpend := h.pending
  have hdel := h.delivery
  rw [TxState.circulating, ← hpost, hpc] at hslots
  rw [← hpost] at hpend hdel
  rw [hadv] at hslots hpend hdel ⊢
  exact {
    apart := h.apart
    availLt := h.availLt
    usedLt := h.usedLt
    consumeLt := h.consumeLt
    lastLt := h.lastLt
    slots := hslots
    pending := hpend
    ahead := h.ahead
    delivery := by
      rw [published_goto s _ _ (by rw [hpc]; rfl)]
      exact hdel.congr fun _ _ _ hl => hload _ _ hl
    stage := ⟨hload _ _ hst, Function.update_self ..⟩ }

theorem getElem?_snoc {xs : List Frame} {i : Nat} (x : Frame) (h : xs[i]? = some data) :
    (xs ++ [x])[i]? = some data := by
  rw [List.getElem?_append_left (List.getElem?_eq_some_iff.mp h).1, h]

theorem Delivery.publish {d : Device} {published : List Frame} {posted : List Nat}
    {reads : List Reading} (hd : Delivery h d published posted reads) (hl : Loaded h k data) :
    Delivery h d (published ++ [data]) (posted ++ [k]) reads := by
  refine ⟨?_, ?_, fun e he => ?_, fun r hr => ?_⟩
  · rw [List.length_append]
    exact Nat.le_add_right_of_le hd.taken
  · rw [List.drop_append_of_le_length hd.taken]
    exact List.rel_append hd.posted (.cons hl .nil)
  · obtain ⟨data',hdata,hl'⟩ := hd.held e he
    exact ⟨data', getElem?_snoc data hdata, hl'⟩
  · obtain ⟨data',hdata,hb⟩ := hd.reads r hr
    exact ⟨data', getElem?_snoc data hdata, hb⟩

theorem TxInv.publish (h : TxInv s) (hpc : s.pc = .publish data slot) : TxInv s.advance := by
  have hst := h.stage
  rw [hpc] at hst
  obtain ⟨hl,hcell⟩ := hst
  have hmark : s.pc.marked = [slot] := by rw [hpc]; rfl
  have hlen := h.length_le
  rw [hmark, List.length_singleton] at hlen
  have hsmall : s.half.q.pending+1 < indexSpace := by
    rw [Nat.add_comm]
    exact Nat.lt_of_le_of_lt hlen (by decide)
  have hadv : s.advance = { s with
      half := { s.half with q := { s.half.q.publish with pending := s.half.q.pending+1 } }
      pc := .returning true data } := by
    simp only [TxState.advance, hpc, bump_of_lt hsmall]
  have hpub : s.advance.published = s.published ++ [data] := by
    rw [hadv, TxState.published, TxState.published, hpc, List.append_assoc]
    rfl
  have hpost : s.advance.posted = s.posted ++ [slot] := by
    have hpush := posted_publish h.lastLt h.availLt (h.room hmark)
    rw [hcell] at hpush
    rw [hadv]
    exact hpush
  have hload (j : Nat) (data' : Frame) (hl : Loaded s.half j data') : Loaded s.advance.half j data' :=
    hl.of_pa (by rw [hadv]; rfl) (by rw [hadv]) (by rw [hadv]; exact fun _ => rfl)
  refine {
    apart := by rw [hadv]; exact h.apart
    availLt := by rw [hadv]; exact bump_lt (by decide) _
    usedLt := by rw [hadv]; exact h.usedLt
    consumeLt := by rw [hadv]; exact h.consumeLt
    lastLt := by rw [hadv]; exact h.lastLt
    slots := ?_
    pending := ?_
    ahead := ?_
    delivery := ?_
    stage := by rw [hadv]; trivial }
  · have hperm : s.circulating.Perm s.advance.circulating := by
      rw [TxState.circulating, TxState.circulating, hpost, hmark, hadv]
      exact perm_to_first slot s.posted (s.heldIds ++ s.completed)
    have hc := h.slots.perm hperm
    rw [hadv] at hc ⊢
    exact hc
  · rw [hpost, List.length_append, hadv]
    have hp := h.pending
    change s.half.q.pending+1 = s.posted.length+1+(s.heldIds.length+s.completed.length)
    omega
  · rw [hadv]
    refine (ahead_bump_hi h.consumeLt h.availLt (h.ahead ▸ hsmall)).trans ?_
    rw [h.ahead]
  · have hd := (h.delivery.publish hl).congr fun j data' _ hl => hload j data' hl
    rw [hpub, hpost, hadv]
    rw [hadv] at hd
    exact hd

theorem TxInv.header (h : TxInv s) (hpc : s.pc = .header data slot) : TxInv s.advance := by
  have hst := h.stage
  rw [hpc] at hst
  have hadv : s.advance = { s with
      half := s.half.fill slot 0 (virtioNetHdr virtioNetHdrGsoNone), pc := .copy data slot } := by
    simp only [TxState.advance, hpc]
  rw [hadv]
  refine h.fill _ 0 _ hst.2.1 hst.2.2 (by decide) (by rw [hpc]; rfl) (by rw [hpc]; rfl) ⟨hst, ?_⟩
  exact load_store

theorem TxInv.copy (h : TxInv s) (hpc : s.pc = .copy data slot) : TxInv s.advance := by
  have hst := h.stage
  rw [hpc] at hst
  obtain ⟨hst,hz⟩ := hst
  have hsize : data.length ≤ 2048 := hst.1.2
  have hadv : s.advance = { s with
      half := s.half.fill slot sizeofVirtioNetHdr data, pc := .mark data slot } := by
    simp only [TxState.advance, hpc]
  rw [hadv]
  refine h.fill _ _ _ hst.2.1 hst.2.2 (show 12+_ ≤ 4096 by omega) (by rw [hpc]; rfl)
    (by rw [hpc]; rfl) ⟨hst, ?_⟩
  change load (store s.half.mem ((s.half.buffers slot).pa+sizeofVirtioNetHdr) data)
    (s.half.buffers slot).pa (sizeofVirtioNetHdr+data.length) = _
  rw [load_add, load_store, load_store_apart (Or.inl (Nat.le_refl _)), hz, message]

theorem TxInv.reclaim (h : TxInv s) (hpc : s.pc = .reclaim data) : TxInv s.advance := by
  have hst := h.stage
  rw [hpc] at hst
  by_cases hne : s.half.q.usedConsume ≠ s.half.q.used.idx
  · have hadv : s.advance = { s with pc := .consume data } := by
      simp only [TxState.advance, hpc, VirtioQueue.completed, bne_iff_ne, if_pos hne]
    rw [hadv]
    exact h.goto _ (by rw [hpc]; rfl) (by rw [hpc]; rfl) ⟨hst, hne⟩
  cases hfind : findFreeVirtioTxSlotLocked s.half with
  | none =>
    have hadv : s.advance = { s with pc := .returning false data } := by
      simp only [TxState.advance, hpc, VirtioQueue.completed, bne_iff_ne, if_neg hne, hfind]
    rw [hadv]
    exact h.goto _ (by rw [hpc]; rfl) (by rw [hpc]; rfl) trivial
  | some slot =>
    have hadv : s.advance = { s with pc := .header data slot } := by
      simp only [TxState.advance, hpc, VirtioQueue.completed, bne_iff_ne, if_neg hne, hfind]
    rw [hadv]
    exact h.goto _ (by rw [hpc]; rfl) (by rw [hpc]; rfl) ⟨hst, findFree_some hfind⟩

theorem TxInv.returning {result : Bool} (h : TxInv s) (hpc : s.pc = .returning result data) :
    TxInv s.advance := by
  have hadv : s.advance = { s with
      pc := .idle, accepted := if result then s.accepted ++ [data] else s.accepted } := by
    simp only [TxState.advance, hpc]
  have hpub : s.advance.published = s.published := by
    rw [hadv, TxState.published, TxState.published, hpc]
    cases result with
    | true => exact List.append_nil _
    | false => rfl
  have hslots := h.slots
  have hdel := h.delivery
  rw [TxState.circulating, hpc] at hslots
  rw [← hpub] at hdel
  rw [hadv] at hdel ⊢
  exact ⟨h.apart, h.availLt, h.usedLt, h.consumeLt, h.lastLt, hslots, h.pending, h.ahead, hdel,
    trivial⟩

theorem TxInv.advance (h : TxInv s) : TxInv s.advance := by
  cases hpc : s.pc with
  | idle =>
    have hadv : s.advance = s := by simp only [TxState.advance, hpc]
    rw [hadv]
    exact h
  | reclaim data => exact h.reclaim hpc
  | consume data => exact h.consume hpc
  | header data slot => exact h.header hpc
  | copy data slot => exact h.copy hpc
  | mark data slot => exact h.mark hpc
  | describe data slot => exact h.describe hpc
  | offer data slot => exact h.offer hpc
  | publish data slot => exact h.publish hpc
  | returning result data => exact h.returning hpc

theorem TxInv.netSendRaw (h : TxInv s) (hpc : s.pc = .idle) (data : Option Frame) :
    TxInv (s.netSendRaw data) := by
  unfold TxState.netSendRaw
  split
  · rename_i hv
    refine h.goto _ (by rw [hpc]; rfl) (by rw [hpc]; rfl) ?_
    cases data with
    | none => cases hv
    | some data =>
      simp only [validData, Bool.and_eq_true, bne_iff_ne, decide_eq_true_eq] at hv
      exact ⟨Nat.pos_of_ne_zero hv.1, hv.2⟩
  · exact h.goto _ (by rw [hpc]; rfl) (by rw [hpc]; rfl) trivial

/-! The steps of the device. -/

theorem Delivery.take {d : Device} {q : VirtioQueue} {published : List Frame} {posted : List Nat}
    {reads : List Reading}
    (hd : Delivery h d published
      (q.avail.ring (d.lastAvail % virtioNetQueueSize) :: posted) reads) :
    Delivery h (d.take q) published posted reads := by
  have hpost := hd.posted
  obtain ⟨data,rest,hl,hrest,hdrop⟩ := List.forall₂_cons_left_iff.mp hpost
  have hget : published[d.taken]? = some data := by
    rw [← List.head?_drop, hdrop, List.head?_cons]
  refine ⟨(List.getElem?_eq_some_iff.mp hget).1, ?_, fun e he => ?_, hd.reads⟩
  · change List.Forall₂ _ posted (published.drop (d.taken+1))
    rw [← List.tail_drop, hdrop]
    exact hrest
  · cases List.mem_append.mp he with
    | inl hold => exact hd.held e hold
    | inr hnew =>
      rw [List.mem_singleton.mp hnew]
      exact ⟨data, hget, hl⟩

theorem TxInv.take (h : TxInv s) (hne : s.dev.lastAvail ≠ s.half.q.avail.idx) : TxInv s.take := by
  have hpost : s.posted = s.half.q.avail.ring (s.dev.lastAvail % virtioNetQueueSize) ::
      s.take.posted := posted_pop h.lastLt h.availLt hne
  have hheld : s.take.heldIds = s.heldIds ++
      [s.half.q.avail.ring (s.dev.lastAvail % virtioNetQueueSize)] := List.map_append
  have hdel := h.delivery
  rw [hpost] at hdel
  exact {
    apart := h.apart
    availLt := h.availLt
    usedLt := h.usedLt
    consumeLt := h.consumeLt
    lastLt := bump_lt (by decide) _
    slots := by
      refine h.slots.perm ?_
      rw [TxState.circulating, TxState.circulating, hpost, hheld]
      exact (perm_to_second _ s.take.posted s.heldIds s.completed).append_left s.pc.marked
    pending := by
      have hp := h.pending
      rw [hpost, List.length_cons] at hp
      rw [hheld, List.length_append, List.length_singleton]
      change s.half.q.pending = s.take.posted.length+(s.heldIds.length+1+s.completed.length)
      omega
    ahead := h.ahead
    delivery := hdel.take
    stage := h.stage }

theorem Delivery.read {d : Device} {published : List Frame} {posted : List Nat}
    {reads : List Reading} {e : Held} (hd : Delivery h d published posted reads) (he : e ∈ d.held) :
    Delivery h d published posted (reads ++ [⟨e.index, h.dma e.id⟩]) := by
  refine ⟨hd.taken, hd.posted, hd.held, fun r hr => ?_⟩
  cases List.mem_append.mp hr with
  | inl hold => exact hd.reads r hold
  | inr hnew =>
    rw [List.mem_singleton.mp hnew]
    obtain ⟨data,hdata,hl⟩ := hd.held e he
    exact ⟨data, hdata, hl.dma⟩

theorem TxInv.read {e : Held} (h : TxInv s) (he : e ∈ s.dev.held) : TxInv (s.read e) :=
  ⟨h.apart, h.availLt, h.usedLt, h.consumeLt, h.lastLt, h.slots, h.pending, h.ahead,
    h.delivery.read he, h.stage⟩

theorem TxInv.usedRoom {e : Held} (h : TxInv s) (he : e ∈ s.dev.held) :
    s.half.q.returned.length < virtioNetQueueSize := by
  have hl := h.length_le
  have hpos : 0 < s.heldIds.length := List.length_pos_of_mem (List.mem_map_of_mem he)
  rw [h.pending, TxState.completed, List.length_map] at hl
  omega

theorem TxInv.complete {e : Held} (h : TxInv s) (he : e ∈ s.dev.held) (len : Nat) :
    TxInv (s.complete e len) := by
  have hret := returned_complete h.consumeLt h.usedLt (h.usedRoom he) e.id len
  have hcomp : (s.complete e len).completed = s.completed ++ [e.id] :=
    (congrArg (List.map VirtioNetUsedElem.id) hret).trans List.map_append
  have hheld : s.heldIds.Perm (e.id :: (s.complete e len).heldIds) :=
    (List.perm_cons_erase he).map Held.id
  exact {
    apart := h.apart
    availLt := h.availLt
    usedLt := bump_lt (by decide) _
    consumeLt := h.consumeLt
    lastLt := h.lastLt
    slots := by
      refine h.slots.perm ?_
      rw [TxState.circulating, TxState.circulating, hcomp]
      exact (perm_to_last s.posted s.completed hheld).append_left s.pc.marked
    pending := by
      have hp := h.pending
      rw [hheld.length_eq, List.length_cons] at hp
      rw [hcomp, List.length_append, List.length_singleton]
      change s.half.q.pending = s.posted.length+
        ((s.complete e len).heldIds.length+(s.completed.length+1))
      omega
    ahead := h.ahead
    delivery := by
      have hd : Delivery (s.complete e len).half s.dev s.published s.posted s.reads :=
        h.delivery.congr fun _ _ _ hl => hl.of_pa rfl rfl fun _ => rfl
      exact ⟨hd.taken, hd.posted, fun x hx => hd.held x (List.mem_of_mem_erase hx), hd.reads⟩
    stage := by
      have hst := h.stage
      change Stage (s.complete e len).half s.pc
      cases hpc : s.pc with
      | consume data =>
        rw [hpc] at hst
        refine ⟨hst.1, fun heq => ?_⟩
        have hnil := (returned_eq_nil (q := s.half.q.complete e.id len) h.consumeLt
          (bump_lt (by decide) _)).mpr heq
        rw [hret] at hnil
        exact List.append_ne_nil_of_right_ne_nil _ (List.cons_ne_nil _ _) hnil
      | offer data slot =>
        rw [hpc] at hst
        exact Loaded.of_pa hst rfl rfl fun _ => rfl
      | publish data slot =>
        rw [hpc] at hst
        exact ⟨Loaded.of_pa hst.1 rfl rfl fun _ => rfl, hst.2⟩
      | idle | reclaim | header | copy | mark | describe | returning =>
        rw [hpc] at hst
        exact hst }

theorem TxInv.init (h : Half) (ha : Apart h.buffers) :
    TxInv ⟨initTxBuffersLocked h, .idle, .reset, [], []⟩ := by
  have hzero : 0 < indexSpace := by decide
  have hpost : (initTxBuffersLocked h).q.posted Device.reset.lastAvail = [] := window_self hzero
  have hret : (initTxBuffersLocked h).q.returned = [] := window_self hzero
  refine {
    apart := apart_congr ha fun j => ?_
    availLt := hzero
    usedLt := hzero
    consumeLt := hzero
    lastLt := hzero
    slots := ?_
    pending := ?_
    ahead := ahead_self hzero
    delivery := ?_
    stage := trivial }
  · simp only [initTxBuffersLocked]
    split <;> rfl
  · simp only [TxState.circulating, TxState.posted, TxState.completed, hpost, hret]
    refine ⟨List.nodup_nil, fun k => ⟨fun hm => absurd hm List.not_mem_nil, fun ⟨hk,hf⟩ => ?_⟩⟩
    simp only [initTxBuffersLocked, if_pos hk] at hf
    cases hf
  · simp only [TxState.posted, TxState.completed, hpost, hret]
    rfl
  · simp only [TxState.posted, hpost]
    exact ⟨Nat.le_refl _, .nil, fun _ he => absurd he List.not_mem_nil,
      fun _ hr => absurd hr List.not_mem_nil⟩

theorem txInv_step {s t : TxState} (h : TxInv s) (hs : TxStep s t) : TxInv t := by
  cases hs with
  | call data hpc => exact h.netSendRaw hpc data
  | advance _ => exact h.advance
  | take hne => exact h.take hne
  | read e he => exact h.read he
  | complete e len he => exact h.complete he len

theorem txInv_invariant : txSystem.Invariant TxInv where
  init := by
    rintro s ⟨h,ha,rfl⟩
    exact .init h ha
  step _ _ := txInv_step

/-! What the ring promises. -/

/-- A step changes of the shared places at most the one `writes` names. -/
structure OnlyWrites (s t : TxState) : Prop where
  desc : ∀ k, s.writes ≠ some (.desc k) → t.half.q.desc k = s.half.q.desc k
  cell : ∀ c, s.writes ≠ some (.availCell c) → t.half.q.avail.ring c = s.half.q.avail.ring c
  page : ∀ k, k < virtioNetQueueSize → s.writes ≠ some (.buffer k) →
    load t.half.mem (s.half.buffers k).pa pageSize = load s.half.mem (s.half.buffers k).pa pageSize

theorem OnlyWrites.of_eq {t : TxState} (hd : t.half.q.desc = s.half.q.desc)
    (hc : t.half.q.avail.ring = s.half.q.avail.ring) (hm : t.half.mem = s.half.mem) :
    OnlyWrites s t :=
  ⟨fun _ _ => by rw [hd], fun _ _ => by rw [hc], fun _ _ _ => by rw [hm]⟩

theorem OnlyWrites.fill {pc : TxPc} {off : Nat} {xs : List UInt8} (h : TxInv s)
    (hw : s.writes = some (.buffer slot)) (hk : slot < virtioNetQueueSize)
    (hfit : off+xs.length ≤ pageSize) :
    OnlyWrites s { s with half := s.half.fill slot off xs, pc := pc } := by
  refine ⟨fun _ _ => rfl, fun _ _ => rfl, fun k hk' hne => load_store_apart ?_⟩
  have hks : k ≠ slot := fun he => hne (by rw [hw, he])
  cases h.apart k slot hk' hk hks with
  | inl ha => exact Or.inl (by omega)
  | inr ha => exact Or.inr (by omega)

theorem TxInv.onlyWrites_advance (h : TxInv s) : OnlyWrites s s.advance := by
  have hst := h.stage
  cases hpc : s.pc with
  | reclaim data =>
    simp only [TxState.advance, hpc]
    split
    · exact .of_eq rfl rfl rfl
    · split <;> exact .of_eq rfl rfl rfl
  | consume data =>
    simp only [TxState.advance, hpc, reclaimOne]
    split <;> exact .of_eq rfl rfl rfl
  | header data slot =>
    rw [hpc] at hst
    simp only [TxState.advance, hpc]
    exact .fill h (by simp only [TxState.writes, hpc]) hst.2.1 (by decide)
  | copy data slot =>
    rw [hpc] at hst
    have hsize : data.length ≤ 2048 := hst.1.1.2
    simp only [TxState.advance, hpc]
    exact .fill h (by simp only [TxState.writes, hpc]) hst.1.2.1 (show 12+_ ≤ 4096 by omega)
  | describe data slot =>
    simp only [TxState.advance, hpc]
    refine ⟨fun k hw => Function.update_of_ne (fun he => hw ?_) _ _, fun _ _ => rfl,
      fun _ _ _ => rfl⟩
    simp only [TxState.writes, hpc, he]
  | offer data slot =>
    simp only [TxState.advance, hpc]
    refine ⟨fun _ _ => rfl, fun c hw => Function.update_of_ne (fun he => hw ?_) _ _,
      fun _ _ _ => rfl⟩
    simp only [TxState.writes, hpc, he]
  | idle | mark | publish | returning =>
    simp only [TxState.advance, hpc]
    exact .of_eq rfl rfl rfl

theorem TxInv.onlyWrites {t : TxState} (h : TxInv s) (hs : TxStep s t) : OnlyWrites s t := by
  cases hs with
  | advance _ => exact h.onlyWrites_advance
  | call data hpc =>
    unfold TxState.netSendRaw
    split <;> exact .of_eq rfl rfl rfl
  | take | read | complete => exact .of_eq rfl rfl rfl

/-- No step of a call writes the buffer or the descriptor of a slot the device owns. -/
theorem TxInv.writes_inFlight (h : TxInv s) (hf : s.InFlight k) :
    s.writes ≠ some (.buffer k) ∧ s.writes ≠ some (.desc k) := by
  obtain ⟨-,hu,hm⟩ := h.inFlight hf
  have hst := h.stage
  cases hpc : s.pc with
  | header data slot =>
    rw [hpc] at hst
    simp only [TxState.writes, hpc]
    refine ⟨fun he => ?_, fun he => by cases he⟩
    cases he
    exact Bool.noConfusion (hu.symm.trans hst.2.2)
  | copy data slot =>
    rw [hpc] at hst
    simp only [TxState.writes, hpc]
    refine ⟨fun he => ?_, fun he => by cases he⟩
    cases he
    exact Bool.noConfusion (hu.symm.trans hst.1.2.2)
  | describe data slot =>
    rw [hpc] at hm
    simp only [TxState.writes, hpc]
    refine ⟨fun he => (by cases he), fun he => ?_⟩
    cases he
    exact hm (List.mem_singleton_self _)
  | idle | reclaim | consume | mark | offer | publish | returning =>
    simp [TxState.writes, hpc]

theorem TxInv.writes_cell {i : Nat} (h : TxInv s) (hi : i < s.posted.length) :
    s.writes ≠ some (.availCell ((s.dev.lastAvail+i) % virtioNetQueueSize)) := by
  cases hpc : s.pc with
  | offer data slot =>
    simp only [TxState.writes, hpc]
    have hroom := h.room (show s.pc.marked = [slot] by rw [hpc]; rfl)
    simp only [TxState.posted, length_posted] at hi hroom
    intro he
    injection he with he
    injection he with he
    exact cell_ne dvd_indexSpace h.lastLt h.availLt hroom hi he.symm
  | idle | reclaim | consume | header | copy | mark | describe | publish | returning =>
    simp [TxState.writes, hpc]

theorem TxInv.full {t : TxState} (h : TxInv s) (hs : TxStep s t) (hd : Sized data)
    (hpc : t.pc = .returning false data) (hne : s.pc ≠ t.pc) (hk : k < virtioNetQueueSize) :
    s.InFlight k := by
  cases hs with
  | take | read | complete => exact absurd rfl hne
  | call d _ =>
    unfold TxState.netSendRaw at hpc
    split at hpc
    · cases hpc
    · rename_i hv
      injection hpc with _ hdata
      cases d with
      | none =>
        have hpos := hd.1
        rw [← hdata] at hpos
        exact absurd hpos (by simp)
      | some d =>
        subst hdata
        simp only [validData, Bool.and_eq_true, bne_iff_ne, decide_eq_true_eq] at hv
        exact absurd ⟨Nat.ne_of_gt hd.1, hd.2⟩ hv
  | advance _ =>
    cases hp : s.pc with
    | reclaim d =>
      simp only [TxState.advance, hp, VirtioQueue.completed] at hpc
      by_cases hc : s.half.q.usedConsume = s.half.q.used.idx
      · have hmark : s.pc.marked = [] := by rw [hp]; rfl
        have hnil : s.completed = [] := by
          rw [TxState.completed, (returned_eq_nil h.consumeLt h.usedLt).mpr hc, List.map_nil]
        cases hfind : findFreeVirtioTxSlotLocked s.half with
        | some slot => simp [hc, hfind] at hpc
        | none =>
          have hall : virtioNetQueueSize ≤ s.circulating.length := by
            rw [TxState.circulating, hmark, List.nil_append, List.length_append,
              List.length_append, ← h.pending, h.findFree_none hmark hfind]
          have hm := h.slots.full hall hk
          rw [TxState.circulating, hmark, hnil, List.append_nil, List.nil_append] at hm
          exact List.mem_append.mp hm
      · simp [hc] at hpc
    | returning result d => simp [TxState.advance, hp] at hpc
    | idle | consume | header | copy | mark | describe | offer | publish =>
      simp [TxState.advance, hp] at hpc

/-- What the live transmit ring promises. `published` is the frames for which the call has
returned true, then the one whose call has published it and is about to. -/
structure LiveTx (s : TxState) : Prop where
  /-- `pending` counts the slots in use, but for the one a call is filling. -/
  inUse : (List.range virtioNetQueueSize).countP (fun k => (s.half.buffers k).inUse) =
    s.half.q.pending+s.pc.marked.length
  /-- `pending` counts the descriptors published and not reclaimed. -/
  published : ahead indexSpace s.half.q.usedConsume s.half.q.avail.idx = s.half.q.pending
  pending_le : s.half.q.pending ≤ virtioNetQueueSize
  /-- What the device owns is not written, nor is a cell it has still to read. -/
  buffers : ∀ k, s.InFlight k → s.writes ≠ some (.buffer k) ∧ s.writes ≠ some (.desc k)
  cells : ∀ i < s.posted.length,
    s.writes ≠ some (.availCell ((s.dev.lastAvail+i) % virtioNetQueueSize))
  only : ∀ t, TxStep s t → OnlyWrites s t
  /-- The entries taken are the published frames in order, those not taken the rest. -/
  order : s.posted.map s.half.dma = (s.published.drop s.dev.taken).map message
  held : ∀ e ∈ s.dev.held, (s.published[e.index]?).map message = some (s.half.dma e.id)
  reads : ∀ r ∈ s.reads, (s.published[r.index]?).map message = some r.bytes
  taken : s.dev.taken ≤ s.published.length
  accepted : s.pc = .idle → s.published = s.accepted
  /-- A frame of a valid length is refused only when the device owns all buffers. -/
  full : ∀ t data, TxStep s t → Sized data → t.pc = .returning false data → s.pc ≠ t.pc →
    ∀ k < virtioNetQueueSize, s.InFlight k

/-- The transmit ring keeps its promises in every interleaving of calls and device. -/
theorem live_tx (h : txSystem.Reachable s) : LiveTx s := by
  have hi := txInv_invariant.reachable h
  have hle := hi.length_le
  refine {
    inUse := ?_
    published := hi.ahead
    pending_le := by omega
    buffers := fun k => hi.writes_inFlight
    cells := fun i => hi.writes_cell
    only := fun t => hi.onlyWrites
    order := ?_
    held := fun e he => ?_
    reads := fun r hr => ?_
    taken := hi.delivery.taken
    accepted := fun hp => by rw [TxState.published, hp]; exact List.append_nil _
    full := fun t data hs hd hpc hne k hk => hi.full hs hd hpc hne hk }
  · rw [hi.slots.count, TxState.circulating, List.length_append, List.length_append,
      List.length_append, ← hi.pending, Nat.add_comm]
  · refine List.forall₂_eq_eq_eq ▸ ?_
    rw [List.forall₂_map_left_iff, List.forall₂_map_right_iff]
    exact hi.delivery.posted.imp fun k data hl => hl.dma
  · obtain ⟨data,hdata,hl⟩ := hi.delivery.held e he
    rw [hdata, hl.dma]
    rfl
  · obtain ⟨data,hdata,hb⟩ := hi.delivery.reads r hr
    rw [hdata, hb]
    rfl

def txSendRun : TxState :=
  let s : TxState := ⟨initTxBuffersLocked freshHalf, .idle, .reset, [], []⟩
  let s := TxState.advance^[8] (s.netSendRaw (some [1, 2, 3]))
  (s.take.read ⟨0, 0⟩).complete ⟨0, 0⟩ 0

theorem live_tx_send : LiveTx txSendRun ∧ txSendRun.accepted = [[1, 2, 3]] ∧
    txSendRun.reads = [⟨0, message [1, 2, 3]⟩] := by
  refine ⟨live_tx ?_, by decide +kernel, by decide +kernel⟩
  have hcall : txSystem.Reachable (TxState.netSendRaw ⟨initTxBuffersLocked freshHalf, .idle, .reset,
      [], []⟩ (some [1, 2, 3])) :=
    .step (.init ⟨freshHalf, freshHalf_apart, rfl⟩) (.call _ _ rfl)
  have hsent := System.reachable_iterate TxStep.advance hcall 8 (by decide +kernel)
  have htake := hsent.step (.take _ (by decide +kernel))
  have hread := htake.step (.read _ ⟨0, 0⟩ (by decide +kernel))
  exact hread.step (.complete _ ⟨0, 0⟩ 0 (by decide +kernel))

end NetKernel.TxRing
