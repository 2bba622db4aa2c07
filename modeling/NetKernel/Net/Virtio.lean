import NetKernel.Lib.FlatMemory
import NetKernel.Lib.IndexRing

/-! The virtio-net queue layout: descriptors, the two rings with their 16-bit
free-running indices, and the packet buffers in physical memory. -/
namespace NetKernel.Virtio
open FlatMemory IndexRing

abbrev virtioNetQueueSize : Nat := 8
abbrev virtioNetMaxFrameSize : Nat := 2048
abbrev virtqDescFWrite : Nat := 2
abbrev sizeofVirtioNetHdr : Nat := 12
abbrev kVirtioBufferSize : Nat := 2060

/-- The values of a `uint16_t`. -/
abbrev indexSpace : Nat := 65536

abbrev virtioNetHdrGsoNone : UInt8 := 0

/-- `VirtioNetHdr` in memory order, `gso_type` after a zeroed `flags`. -/
def virtioNetHdr (gsoType : UInt8) : List UInt8 := 0 :: gsoType :: List.replicate 10 0

structure VirtioNetDescriptor where
  addr : Nat
  len : Nat
  flags : Nat
  next : Nat
deriving DecidableEq, Repr

structure VirtioNetAvailRing where
  flags : Nat
  idx : Nat
  ring : Nat → Nat

structure VirtioNetUsedElem where
  id : Nat
  len : Nat
deriving DecidableEq, Repr

structure VirtioNetUsedRing where
  flags : Nat
  idx : Nat
  ring : Nat → VirtioNetUsedElem

/-- `data` is the kernel's mapping of the page at `pa`, so both are `pa` here. -/
structure VirtioBuffer where
  pa : Nat
  inUse : Bool
  len : Nat
deriving DecidableEq, Repr

structure VirtioQueue where
  desc : Nat → VirtioNetDescriptor
  avail : VirtioNetAvailRing
  used : VirtioNetUsedRing
  usedConsume : Nat
  pending : Nat

/-- One direction of `g_hw` and the physical memory it uses. -/
structure Half where
  q : VirtioQueue
  buffers : Nat → VirtioBuffer
  mem : Nat → UInt8

abbrev pageSize : Nat := 4096

/-- The buffers are pages of their own, as `physMem.alloc` hands them out. -/
def Apart (buffers : Nat → VirtioBuffer) : Prop :=
  ∀ i j, i < virtioNetQueueSize → j < virtioNetQueueSize → i ≠ j →
    (buffers i).pa+pageSize ≤ (buffers j).pa ∨ (buffers j).pa+pageSize ≤ (buffers i).pa

/-- `used->idx != used_consume`. -/
def VirtioQueue.completed (q : VirtioQueue) : Bool := q.usedConsume != q.used.idx

/-- `used->ring[used_consume % 8]`. -/
def VirtioQueue.usedElem (q : VirtioQueue) : VirtioNetUsedElem :=
  q.used.ring (q.usedConsume % virtioNetQueueSize)

/-- `++used_consume`. -/
def VirtioQueue.skip (q : VirtioQueue) : VirtioQueue :=
  { q with usedConsume := bump indexSpace q.usedConsume }

/-- `avail->ring[avail->idx % 8] = slot`. -/
def VirtioQueue.offer (q : VirtioQueue) (slot : Nat) : VirtioQueue :=
  { q with avail := { q.avail with
      ring := Function.update q.avail.ring (q.avail.idx % virtioNetQueueSize) slot } }

/-- `avail->idx = uint16_t(avail->idx + 1)`. -/
def VirtioQueue.publish (q : VirtioQueue) : VirtioQueue :=
  { q with avail := { q.avail with idx := bump indexSpace q.avail.idx } }

/-- The entries published and not yet taken by a device at `lastAvail`. -/
def VirtioQueue.posted (q : VirtioQueue) (lastAvail : Nat) : List Nat :=
  window virtioNetQueueSize indexSpace q.avail.ring lastAvail q.avail.idx

def VirtioQueue.returned (q : VirtioQueue) : List VirtioNetUsedElem :=
  window virtioNetQueueSize indexSpace q.used.ring q.usedConsume q.used.idx

def initTxBuffersLocked (h : Half) : Half :=
  { h with
    q := {
      desc := fun i =>
        if i < virtioNetQueueSize then ⟨(h.buffers i).pa, 0, 0, 0⟩ else h.q.desc i
      avail := { h.q.avail with flags := 0, idx := 0 }
      used := { h.q.used with flags := 0, idx := 0 }
      usedConsume := 0
      pending := 0 }
    buffers := fun i =>
      if i < virtioNetQueueSize then { h.buffers i with inUse := false, len := 0 }
      else h.buffers i }

/-- `init_rx_buffers_locked`: every buffer is described and posted. -/
def initRxBuffersLocked (h : Half) : Half :=
  { h with
    q := { h.q with
      desc := fun i =>
        if i < virtioNetQueueSize then ⟨(h.buffers i).pa, kVirtioBufferSize, virtqDescFWrite, 0⟩
        else h.q.desc i
      avail := {
        flags := 0
        idx := virtioNetQueueSize
        ring := fun i => if i < virtioNetQueueSize then i else h.q.avail.ring i }
      used := { h.q.used with flags := 0, idx := 0 }
      usedConsume := 0 }
    buffers := fun i =>
      if i < virtioNetQueueSize then { h.buffers i with inUse := true, len := 0 }
      else h.buffers i }

/-- The body of the loop of `reclaim_virtio_tx_locked`. -/
def reclaimOne (h : Half) : Half :=
  let slot := h.q.usedElem.id % indexSpace
  let b := { h.buffers slot with inUse := false, len := 0 }
  let h := if slot < virtioNetQueueSize ∧ (h.buffers slot).inUse = true then
    { h with
      buffers := Function.update h.buffers slot b
      q := { h.q with pending := if 0 < h.q.pending then h.q.pending-1 else h.q.pending } }
    else h
  { h with q := h.q.skip }

def findFreeVirtioTxSlotLocked (h : Half) : Option Nat :=
  if virtioNetQueueSize ≤ h.q.pending then none
  else (List.range virtioNetQueueSize).find? fun i => !(h.buffers i).inUse

/-- A store into the buffer of a slot, `off` bytes from its start. -/
def Half.fill (h : Half) (slot off : Nat) (xs : List UInt8) : Half :=
  { h with mem := store h.mem ((h.buffers slot).pa+off) xs }

/-- `in_use` and `len` of a slot. -/
def Half.mark (h : Half) (slot len : Nat) : Half :=
  let b := { h.buffers slot with inUse := true, len := len % indexSpace }
  { h with buffers := Function.update h.buffers slot b }

def Half.describe (h : Half) (slot len flags : Nat) : Half :=
  let d : VirtioNetDescriptor := ⟨(h.buffers slot).pa, len, flags, 0⟩
  { h with q := { h.q with desc := Function.update h.q.desc slot d } }

/-! The device. -/

/-- An entry taken from the avail ring; `index` counts the entries taken before it. -/
structure Held where
  index : Nat
  id : Nat
deriving DecidableEq, Repr

/-- The device's index into the avail ring, how many entries it has taken and those
it has not returned. -/
structure Device where
  lastAvail : Nat
  taken : Nat
  held : List Held
deriving DecidableEq, Repr

def Device.reset : Device := ⟨0, 0, []⟩

def Device.take (d : Device) (q : VirtioQueue) : Device where
  lastAvail := bump indexSpace d.lastAvail
  taken := d.taken+1
  held := d.held ++ [⟨d.taken, q.avail.ring (d.lastAvail % virtioNetQueueSize)⟩]

/-- The device writes a completion and moves `used->idx`. -/
def VirtioQueue.complete (q : VirtioQueue) (id len : Nat) : VirtioQueue :=
  { q with used := { q.used with
      idx := bump indexSpace q.used.idx
      ring := Function.update q.used.ring (q.used.idx % virtioNetQueueSize) ⟨id, len⟩ } }

/-- The bytes a descriptor points at. -/
def Half.dma (h : Half) (id : Nat) : List UInt8 := load h.mem (h.q.desc id).addr (h.q.desc id).len

/-! What the operations do to the entries of the rings. -/

theorem dvd_indexSpace : virtioNetQueueSize ∣ indexSpace := ⟨8192, rfl⟩

variable {q : VirtioQueue} {lastAvail : Nat}

@[simp] theorem length_posted :
    (q.posted lastAvail).length = ahead indexSpace lastAvail q.avail.idx := length_window

@[simp] theorem length_returned : q.returned.length = ahead indexSpace q.usedConsume q.used.idx :=
  length_window

theorem posted_pop (hl : lastAvail < indexSpace) (hh : q.avail.idx < indexSpace)
    (hne : lastAvail ≠ q.avail.idx) :
    q.posted lastAvail = q.avail.ring (lastAvail % virtioNetQueueSize) ::
      q.posted (bump indexSpace lastAvail) :=
  window_pop dvd_indexSpace hl hh hne

theorem posted_offer (hl : lastAvail < indexSpace) (hh : q.avail.idx < indexSpace)
    (hroom : (q.posted lastAvail).length < virtioNetQueueSize) (slot : Nat) :
    (q.offer slot).posted lastAvail = q.posted lastAvail :=
  window_update dvd_indexSpace hl hh (length_posted ▸ hroom) slot

theorem posted_publish (hl : lastAvail < indexSpace) (hh : q.avail.idx < indexSpace)
    (hroom : (q.posted lastAvail).length < virtioNetQueueSize) :
    q.publish.posted lastAvail =
      q.posted lastAvail ++ [q.avail.ring (q.avail.idx % virtioNetQueueSize)] := by
  refine window_push dvd_indexSpace hl hh ?_
  rw [length_posted] at hroom
  exact Nat.lt_of_le_of_lt hroom (by decide)

theorem returned_pop (hl : q.usedConsume < indexSpace) (hh : q.used.idx < indexSpace)
    (hne : q.usedConsume ≠ q.used.idx) :
    q.returned = q.usedElem :: q.skip.returned :=
  window_pop dvd_indexSpace hl hh hne

theorem returned_complete (hl : q.usedConsume < indexSpace) (hh : q.used.idx < indexSpace)
    (hroom : q.returned.length < virtioNetQueueSize) (id len : Nat) :
    (q.complete id len).returned = q.returned ++ [⟨id, len⟩] :=
  window_write dvd_indexSpace hl hh (length_returned ▸ hroom) (by decide) _

theorem returned_eq_nil (hl : q.usedConsume < indexSpace) (hh : q.used.idx < indexSpace) :
    q.returned = [] ↔ q.usedConsume = q.used.idx := window_eq_nil hl hh

/-! Updates of the flags keep the pages. -/

theorem update_pa {b : Nat → VirtioBuffer} {x : Nat} {c : VirtioBuffer} (hc : c.pa = (b x).pa)
    (j : Nat) : (Function.update b x c j).pa = (b j).pa := by
  by_cases hj : j = x
  · subst hj
    rw [Function.update_self, hc]
  · rw [Function.update_of_ne hj]

theorem update_inUse (b : Nat → VirtioBuffer) (x : Nat) (c : VirtioBuffer) :
    (fun k => (Function.update b x c k).inUse) =
      Function.update (fun k => (b k).inUse) x c.inUse := by
  funext k
  by_cases hk : k = x
  · subst hk
    simp only [Function.update_self]
  · simp only [Function.update_of_ne hk]

theorem apart_congr {b b' : Nat → VirtioBuffer} (h : Apart b) (hp : ∀ j, (b' j).pa = (b j).pa) :
    Apart b' := by
  intro i j hi hj hne
  rw [hp, hp]
  exact h i j hi hj hne

/-- Eight zeroed pages and a queue with unset rings. -/
def freshHalf : Half where
  q := ⟨fun _ => ⟨0, 0, 0, 0⟩, ⟨0, 0, fun _ => 0⟩, ⟨0, 0, fun _ => ⟨0, 0⟩⟩, 0, 0⟩
  buffers i := ⟨pageSize*i, false, 0⟩
  mem _ := 0

theorem freshHalf_apart : Apart freshHalf.buffers := by
  intro i j _ _ hne
  change 4096*i+4096 ≤ 4096*j ∨ 4096*j+4096 ≤ 4096*i
  omega

end NetKernel.Virtio
