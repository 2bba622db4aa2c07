import NetKernel.Lib.Runs
import NetKernel.Lib.Slots
import NetKernel.Net.Virtio

/-! The live receive ring: `net_recv_raw` under `g_net.lock`, one access to shared
memory at a time, against a device that fills and completes buffers in between. -/
namespace NetKernel.RxRing
open FlatMemory IndexRing Slots Virtio Runs

abbrev Frame := List UInt8

/-- Where the call that holds `g_net.lock` stands; `out` is what it has copied. -/
inductive RxPc where
  | idle
  | poll (maxLen : Nat)
  | inspect (maxLen : Nat)
  | copy (slot frameLen : Nat)
  | describe (slot : Nat) (out : Frame)
  | offer (slot : Nat) (out : Frame)
  | publish (slot : Nat) (out : Frame)
  | returning (result : Int) (out : Frame)
deriving DecidableEq, Repr

/-- `received` lists the frames `net_recv_raw` has returned, `completions` those the
device has reported, as they lay in memory then. -/
structure RxState where
  half : Half
  pc : RxPc
  dev : Device
  received : List Frame
  completions : List Frame

/-- `net_recv_raw` up to the lock; `out` tells whether the pointer is non-null. -/
def RxState.netRecvRaw (s : RxState) (out : Bool) (maxLen : Nat) : RxState :=
  if out = false ∨ maxLen = 0 then { s with pc := .returning (-1) [] }
  else { s with pc := .poll maxLen }

/-- The next step of the call: the code of `virtio_recv_raw_locked` in its order. -/
def RxState.advance (s : RxState) : RxState :=
  match s.pc with
  | .idle => s
  | .poll maxLen =>
    if s.half.q.completed then { s with pc := .inspect maxLen }
    else { s with pc := .returning 0 [] }
  | .inspect maxLen =>
    let slot := s.half.q.usedElem.id % indexSpace
    let totalLen := s.half.q.usedElem.len
    if virtioNetQueueSize ≤ slot ∨ totalLen < sizeofVirtioNetHdr then
      { s with half := { s.half with q := s.half.q.skip }, pc := .returning 0 [] }
    else if maxLen < totalLen-sizeofVirtioNetHdr then { s with pc := .returning (-1) [] }
    else { s with pc := .copy slot (totalLen-sizeofVirtioNetHdr) }
  | .copy slot frameLen =>
    let out := load s.half.mem ((s.half.buffers slot).pa+sizeofVirtioNetHdr) frameLen
    { s with pc := .describe slot out }
  | .describe slot out =>
    { s with
      half := s.half.describe slot kVirtioBufferSize virtqDescFWrite
      pc := .offer slot out }
  | .offer slot out =>
    { s with half := { s.half with q := s.half.q.skip.offer slot }, pc := .publish slot out }
  | .publish _ out =>
    { s with half := { s.half with q := s.half.q.publish }, pc := .returning out.length out }
  | .returning result out =>
    { s with pc := .idle, received := if 0 < result then s.received ++ [out] else s.received }

def RxState.take (s : RxState) : RxState := { s with dev := s.dev.take s.half.q }

/-- The device stores through the descriptor of an entry it holds. -/
def RxState.write (s : RxState) (e : Held) (off : Nat) (xs : List UInt8) : RxState :=
  let mem := store s.half.mem ((s.half.q.desc e.id).addr+off) xs
  { s with half := { s.half with mem := mem } }

def RxState.complete (s : RxState) (e : Held) (len : Nat) : RxState :=
  let frame := load s.half.mem ((s.half.q.desc e.id).addr+sizeofVirtioNetHdr)
    (len-sizeofVirtioNetHdr)
  { s with
    half := { s.half with q := s.half.q.complete e.id len }
    dev := { s.dev with held := s.dev.held.erase e }
    completions := s.completions ++ [frame] }

/-- Calls start one after the other, as the lock makes them; the device takes what is
posted, stores within the descriptors of what it holds and completes it in any order. -/
inductive RxStep : RxState → RxState → Prop
  | call (s : RxState) (out : Bool) (maxLen : Nat) :
    s.pc = .idle → RxStep s (s.netRecvRaw out maxLen)
  | advance (s : RxState) : s.pc ≠ .idle → RxStep s s.advance
  | take (s : RxState) : s.dev.lastAvail ≠ s.half.q.avail.idx → RxStep s s.take
  | write (s : RxState) (e : Held) (off : Nat) (xs : List UInt8) : e ∈ s.dev.held →
    off+xs.length ≤ (s.half.q.desc e.id).len → RxStep s (s.write e off xs)
  | complete (s : RxState) (e : Held) (len : Nat) : e ∈ s.dev.held → sizeofVirtioNetHdr < len →
    len ≤ (s.half.q.desc e.id).len → RxStep s (s.complete e len)

/-- The ring as `init_rx_buffers_locked` leaves it, over any memory. -/
def rxSystem : System RxState where
  Init s := ∃ h : Half, Apart h.buffers ∧ s = ⟨initRxBuffersLocked h, .idle, .reset, [], []⟩
  Step := RxStep

/-! Views of a state. -/

def RxState.posted (s : RxState) : List Nat := s.half.q.posted s.dev.lastAvail

def RxState.heldIds (s : RxState) : List Nat := s.dev.held.map Held.id

def RxState.completed (s : RxState) : List Nat := s.half.q.returned.map VirtioNetUsedElem.id

/-- The slot a call has consumed and not posted again yet. -/
def RxPc.hand : RxPc → List Nat
  | .publish slot _ => [slot]
  | _ => []

/-- The frame of a completion a call has consumed and not returned yet. -/
def RxPc.inHand : RxPc → List Frame
  | .publish _ out => [out]
  | .returning result out => if 0 < result then [out] else []
  | _ => []

def frameOf (h : Half) (e : VirtioNetUsedElem) : Frame :=
  load h.mem ((h.buffers e.id).pa+sizeofVirtioNetHdr) (e.len-sizeofVirtioNetHdr)

def RxState.InFlight (s : RxState) (k : Nat) : Prop := k ∈ s.posted ∨ k ∈ s.heldIds

/-! The invariant. -/

variable {h h' : Half} {k slot maxLen : Nat} {s : RxState} {out : Frame}

/-- The 8 buffer indices, by where they are. -/
def RxState.circulating (s : RxState) : List Nat :=
  s.pc.hand ++ (s.posted ++ (s.heldIds ++ s.completed))

/-- What a call has done so far. -/
def Stage (h : Half) : RxPc → Prop
  | .idle | .poll _ => True
  | .returning result out => result = out.length ∨ result = -1 ∧ out = []
  | .inspect _ => h.q.usedConsume ≠ h.q.used.idx
  | .copy slot frameLen => ∃ e, h.q.returned.head? = some e ∧ slot = e.id ∧
      frameLen = e.len-sizeofVirtioNetHdr
  | .describe slot out | .offer slot out => ∃ e, h.q.returned.head? = some e ∧ slot = e.id ∧
      out = frameOf h e
  | .publish slot out => h.q.avail.ring (h.q.avail.idx % virtioNetQueueSize) = slot ∧
      0 < out.length

/-- Every descriptor offers the whole of its buffer for writing. -/
def Described (h : Half) : Prop :=
  ∀ k < virtioNetQueueSize,
    h.q.desc k = ⟨(h.buffers k).pa, kVirtioBufferSize, virtqDescFWrite, 0⟩

structure RxInv (s : RxState) : Prop where
  apart : Apart s.half.buffers
  availLt : s.half.q.avail.idx < indexSpace
  usedLt : s.half.q.used.idx < indexSpace
  consumeLt : s.half.q.usedConsume < indexSpace
  lastLt : s.dev.lastAvail < indexSpace
  described : Described s.half
  slots : Circulation virtioNetQueueSize (fun _ => true) s.circulating
  lens : ∀ e ∈ s.half.q.returned, sizeofVirtioNetHdr < e.len ∧ e.len ≤ kVirtioBufferSize
  frames : s.completions = s.received ++ (s.pc.inHand ++ s.half.q.returned.map (frameOf s.half))
  stage : Stage s.half s.pc

theorem RxInv.length_eq (h : RxInv s) : s.circulating.length = virtioNetQueueSize := by
  rw [← h.slots.count]
  rfl

theorem RxInv.lt_of_inFlight (h : RxInv s) (hf : s.InFlight k) : k < virtioNetQueueSize := by
  refine ((h.slots.mem k).mp (List.mem_append_right _ ?_)).1
  cases hf with
  | inl hp => exact List.mem_append_left _ hp
  | inr hh => exact List.mem_append_right _ (List.mem_append_left _ hh)

theorem RxInv.completed_ne (h : RxInv s) {e : VirtioNetUsedElem} (he : e ∈ s.half.q.returned)
    (hf : s.InFlight k) : e.id < virtioNetQueueSize ∧ e.id ≠ k := by
  have hc : e.id ∈ s.completed := List.mem_map_of_mem he
  have hm : e.id ∈ s.posted ++ (s.heldIds ++ s.completed) :=
    List.mem_append_right _ (List.mem_append_right _ hc)
  refine ⟨((h.slots.mem _).mp (List.mem_append_right _ hm)).1, ?_⟩
  rintro rfl
  obtain ⟨-,hn,-⟩ := List.nodup_append.mp h.slots.nodup
  obtain ⟨-,hn2,hd⟩ := List.nodup_append.mp hn
  cases hf with
  | inl hp => exact hd _ hp _ (List.mem_append_right _ hc) rfl
  | inr hh => exact (List.nodup_append.mp hn2).2.2 _ hh _ hc rfl

/-! The steps of a call. -/

theorem RxInv.goto (h : RxInv s) (pc : RxPc) (hhand : pc.hand = s.pc.hand)
    (hin : pc.inHand = s.pc.inHand) (hstage : Stage s.half pc) : RxInv { s with pc := pc } :=
  ⟨h.apart, h.availLt, h.usedLt, h.consumeLt, h.lastLt, h.described,
    by rw [RxState.circulating, hhand]; exact h.slots, h.lens, by rw [hin]; exact h.frames, hstage⟩

theorem RxInv.poll (h : RxInv s) (hpc : s.pc = .poll maxLen) : RxInv s.advance := by
  by_cases hne : s.half.q.usedConsume ≠ s.half.q.used.idx
  · have hadv : s.advance = { s with pc := .inspect maxLen } := by
      simp only [RxState.advance, hpc, VirtioQueue.completed, bne_iff_ne, if_pos hne]
    rw [hadv]
    exact h.goto _ (by rw [hpc]; rfl) (by rw [hpc]; rfl) hne
  · have hadv : s.advance = { s with pc := .returning 0 [] } := by
      simp only [RxState.advance, hpc, VirtioQueue.completed, bne_iff_ne, if_neg hne]
    rw [hadv]
    exact h.goto _ (by rw [hpc]; rfl) (by rw [hpc]; rfl) (Or.inl rfl)

theorem RxInv.usedElem (h : RxInv s) (hne : s.half.q.usedConsume ≠ s.half.q.used.idx) :
    s.half.q.returned = s.half.q.usedElem :: s.half.q.skip.returned ∧
      s.half.q.usedElem.id < virtioNetQueueSize ∧
      s.half.q.usedElem.id % indexSpace = s.half.q.usedElem.id ∧
      sizeofVirtioNetHdr < s.half.q.usedElem.len := by
  have hpop := returned_pop h.consumeLt h.usedLt hne
  have hm : s.half.q.usedElem ∈ s.half.q.returned := hpop ▸ List.mem_cons_self
  have hc : s.half.q.usedElem.id ∈ s.circulating :=
    List.mem_append_right _ (List.mem_append_right _ (List.mem_append_right _
      (List.mem_map_of_mem hm)))
  have hk := ((h.slots.mem _).mp hc).1
  exact ⟨hpop, hk, Nat.mod_eq_of_lt (Nat.lt_trans hk (by decide)), (h.lens _ hm).1⟩

def inspected (h : Half) (maxLen : Nat) : RxPc :=
  if maxLen < h.q.usedElem.len-sizeofVirtioNetHdr then .returning (-1) []
  else .copy h.q.usedElem.id (h.q.usedElem.len-sizeofVirtioNetHdr)

theorem advance_inspect (h : RxInv s) (hpc : s.pc = .inspect maxLen) :
    s.advance = { s with pc := inspected s.half maxLen } := by
  have hst := h.stage
  rw [hpc] at hst
  obtain ⟨-,hk,hmod,hlen⟩ := h.usedElem hst
  have hgood : ¬(virtioNetQueueSize ≤ s.half.q.usedElem.id ∨
      s.half.q.usedElem.len < sizeofVirtioNetHdr) := by omega
  simp only [RxState.advance, hpc, hmod, if_neg hgood, inspected]
  split <;> rfl

theorem RxInv.inspect (h : RxInv s) (hpc : s.pc = .inspect maxLen) : RxInv s.advance := by
  have hst := h.stage
  rw [hpc] at hst
  rw [advance_inspect h hpc, inspected]
  split
  · exact h.goto _ (by rw [hpc]; rfl) (by rw [hpc]; rfl) (Or.inr ⟨rfl, rfl⟩)
  · refine h.goto _ (by rw [hpc]; rfl) (by rw [hpc]; rfl) ⟨s.half.q.usedElem, ?_, rfl, rfl⟩
    rw [(h.usedElem hst).1, List.head?_cons]

theorem RxInv.copy {n : Nat} (h : RxInv s) (hpc : s.pc = .copy slot n) : RxInv s.advance := by
  have hst := h.stage
  rw [hpc] at hst
  obtain ⟨e,he,rfl,rfl⟩ := hst
  have hadv : s.advance = { s with pc := .describe e.id (frameOf s.half e) } := by
    simp only [RxState.advance, hpc, frameOf]
  rw [hadv]
  exact h.goto _ (by rw [hpc]; rfl) (by rw [hpc]; rfl) ⟨e, he, rfl, rfl⟩

theorem Described.describe (h : Described s.half) (hk : slot < virtioNetQueueSize) :
    s.half.describe slot kVirtioBufferSize virtqDescFWrite = s.half := by
  rw [Half.describe, ← h slot hk, Function.update_eq_self]

theorem mem_of_head {l : List VirtioNetUsedElem} {e : VirtioNetUsedElem} (h : l.head? = some e) :
    e ∈ l := List.mem_of_mem_head? h

theorem RxInv.head_lt {e : VirtioNetUsedElem} (h : RxInv s)
    (he : s.half.q.returned.head? = some e) : e.id < virtioNetQueueSize :=
  ((h.slots.mem _).mp (List.mem_append_right _ (List.mem_append_right _ (List.mem_append_right _
    (List.mem_map_of_mem (mem_of_head he)))))).1

theorem RxInv.describe (h : RxInv s) (hpc : s.pc = .describe slot out) : RxInv s.advance := by
  have hst := h.stage
  rw [hpc] at hst
  have hk : slot < virtioNetQueueSize := by
    obtain ⟨e,he,rfl,-⟩ := hst
    exact h.head_lt he
  have hadv : s.advance = { s with pc := .offer slot out } := by
    simp only [RxState.advance, hpc, h.described.describe hk]
  rw [hadv]
  exact h.goto _ (by rw [hpc]; rfl) (by rw [hpc]; rfl) hst

theorem RxInv.room (h : RxInv s) (hpos : 0 < s.pc.hand.length+s.completed.length) :
    s.posted.length < virtioNetQueueSize := by
  have hl := h.length_eq
  simp only [RxState.circulating, List.length_append] at hl
  omega

theorem RxInv.offer (h : RxInv s) (hpc : s.pc = .offer slot out) : RxInv s.advance := by
  have hst := h.stage
  rw [hpc] at hst
  obtain ⟨e,he,rfl,rfl⟩ := hst
  have hne : s.half.q.usedConsume ≠ s.half.q.used.idx := by
    intro heq
    rw [(returned_eq_nil h.consumeLt h.usedLt).mpr heq] at he
    cases he
  obtain ⟨hpop,-,-,hlen⟩ := h.usedElem hne
  have heq : s.half.q.usedElem = e := by
    rw [hpop] at he
    exact Option.some.inj he
  rw [heq] at hpop hlen
  have hadv : s.advance = { s with
      half := { s.half with q := s.half.q.skip.offer e.id }
      pc := .publish e.id (frameOf s.half e) } := by
    simp only [RxState.advance, hpc]
  have hcomp : s.completed = e.id :: s.half.q.skip.returned.map VirtioNetUsedElem.id := by
    rw [RxState.completed, hpop, List.map_cons]
  have hpost : (s.half.q.skip.offer e.id).posted s.dev.lastAvail = s.posted :=
    posted_offer (q := s.half.q.skip) h.lastLt h.availLt
      (h.room (by rw [hcomp, List.length_cons]; omega)) _
  rw [hadv]
  exact {
    apart := h.apart
    availLt := h.availLt
    usedLt := h.usedLt
    consumeLt := bump_lt (by decide) _
    lastLt := h.lastLt
    described := h.described
    slots := by
      refine h.slots.perm ?_
      rw [RxState.circulating, hpc, hcomp]
      change (s.posted ++ (s.heldIds ++ e.id :: s.half.q.skip.returned.map _)).Perm
        (e.id :: ((s.half.q.skip.offer e.id).posted s.dev.lastAvail ++
          (s.heldIds ++ s.half.q.skip.returned.map _)))
      rw [hpost, ← List.append_assoc, ← List.append_assoc]
      exact List.perm_middle
    lens := fun x hx => h.lens x (hpop ▸ List.mem_cons_of_mem _ hx)
    frames := by
      have hf := h.frames
      rw [hpc, hpop, List.map_cons] at hf
      exact hf
    stage := ⟨Function.update_self .., by
      rw [frameOf, length_load]
      omega⟩ }

theorem RxInv.publish (h : RxInv s) (hpc : s.pc = .publish slot out) : RxInv s.advance := by
  have hst := h.stage
  rw [hpc] at hst
  obtain ⟨hcell,hpos⟩ := hst
  have hadv : s.advance = { s with
      half := { s.half with q := s.half.q.publish }, pc := .returning out.length out } := by
    simp only [RxState.advance, hpc]
  have hpost : s.half.q.publish.posted s.dev.lastAvail = s.posted ++ [slot] := by
    have hpush := posted_publish h.lastLt h.availLt (h.room (by
      rw [hpc]
      exact Nat.add_pos_left Nat.one_pos _))
    rw [hcell] at hpush
    exact hpush
  rw [hadv]
  exact {
    apart := h.apart
    availLt := bump_lt (by decide) _
    usedLt := h.usedLt
    consumeLt := h.consumeLt
    lastLt := h.lastLt
    described := h.described
    slots := by
      refine h.slots.perm ?_
      rw [RxState.circulating, hpc]
      change (slot :: (s.posted ++ (s.heldIds ++ s.completed))).Perm
        (s.half.q.publish.posted s.dev.lastAvail ++ (s.heldIds ++ s.completed))
      rw [hpost]
      exact perm_to_first slot s.posted (s.heldIds ++ s.completed)
    lens := h.lens
    frames := by
      have hf := h.frames
      rw [hpc] at hf
      simp only [RxPc.inHand, Int.natCast_pos, if_pos hpos]
      exact hf
    stage := Or.inl rfl }

theorem RxInv.returning {result : Int} (h : RxInv s) (hpc : s.pc = .returning result out) :
    RxInv s.advance := by
  have hadv : s.advance = { s with
      pc := .idle, received := if 0 < result then s.received ++ [out] else s.received } := by
    simp only [RxState.advance, hpc]
  have hf := h.frames
  have hslots := h.slots
  rw [hpc] at hf
  rw [RxState.circulating, hpc] at hslots
  rw [hadv]
  refine ⟨h.apart, h.availLt, h.usedLt, h.consumeLt, h.lastLt, h.described, hslots, h.lens, ?_,
    trivial⟩
  simp only [RxPc.inHand] at hf ⊢
  rw [hf]
  split
  · rw [List.append_assoc, List.nil_append]
  · rfl

theorem RxInv.advance (h : RxInv s) : RxInv s.advance := by
  cases hpc : s.pc with
  | idle =>
    have hadv : s.advance = s := by simp only [RxState.advance, hpc]
    rw [hadv]
    exact h
  | poll maxLen => exact h.poll hpc
  | inspect maxLen => exact h.inspect hpc
  | copy slot frameLen => exact h.copy hpc
  | describe slot out => exact h.describe hpc
  | offer slot out => exact h.offer hpc
  | publish slot out => exact h.publish hpc
  | returning result out => exact h.returning hpc

theorem RxInv.netRecvRaw (h : RxInv s) (hpc : s.pc = .idle) (out : Bool) (maxLen : Nat) :
    RxInv (s.netRecvRaw out maxLen) := by
  unfold RxState.netRecvRaw
  split
  · exact h.goto _ (by rw [hpc]; rfl) (by rw [hpc]; rfl) (Or.inr ⟨rfl, rfl⟩)
  · exact h.goto _ (by rw [hpc]; rfl) (by rw [hpc]; rfl) trivial

/-! The steps of the device. -/

theorem RxInv.take (h : RxInv s) (hne : s.dev.lastAvail ≠ s.half.q.avail.idx) : RxInv s.take := by
  have hpost : s.posted = s.half.q.avail.ring (s.dev.lastAvail % virtioNetQueueSize) ::
      s.take.posted := posted_pop h.lastLt h.availLt hne
  have hheld : s.take.heldIds = s.heldIds ++
      [s.half.q.avail.ring (s.dev.lastAvail % virtioNetQueueSize)] := List.map_append
  refine ⟨h.apart, h.availLt, h.usedLt, h.consumeLt, bump_lt (by decide) _, h.described, ?_,
    h.lens, h.frames, h.stage⟩
  refine h.slots.perm ?_
  rw [RxState.circulating, RxState.circulating, hpost, hheld]
  exact (perm_to_second _ s.take.posted s.heldIds s.completed).append_left s.pc.hand

theorem frameOf_store {off : Nat} {xs : List UInt8} {x : VirtioNetUsedElem}
    (ha : Apart h.buffers) (hd : Described h) (hk : k < virtioNetQueueSize)
    (hx : x.id < virtioNetQueueSize) (hne : x.id ≠ k) (hlen : x.len ≤ kVirtioBufferSize)
    (hlo : sizeofVirtioNetHdr ≤ x.len) (hfit : off+xs.length ≤ (h.q.desc k).len) :
    frameOf { h with mem := store h.mem ((h.q.desc k).addr+off) xs } x = frameOf h x := by
  have hl : x.len ≤ 2060 := hlen
  have hl2 : 12 ≤ x.len := hlo
  rw [hd k hk] at hfit
  simp only [kVirtioBufferSize] at hfit
  refine load_store_apart ?_
  change (h.buffers x.id).pa+12+(x.len-12) ≤ _ ∨ _ ≤ (h.buffers x.id).pa+12
  have hpages := ha x.id k hx hk hne
  simp only [pageSize] at hpages
  rw [hd k hk]
  cases hpages with
  | inl ha => exact Or.inl (show _ ≤ (h.buffers k).pa+off by omega)
  | inr ha => exact Or.inr (show (h.buffers k).pa+off+_ ≤ _ by omega)

/-- A store through the descriptor of a held entry leaves the completed frames alone. -/
theorem RxInv.frameOf_write {e : Held} {off : Nat} {xs : List UInt8} {x : VirtioNetUsedElem}
    (h : RxInv s) (he : e ∈ s.dev.held) (hfit : off+xs.length ≤ (s.half.q.desc e.id).len)
    (hx : x ∈ s.half.q.returned) : frameOf (s.write e off xs).half x = frameOf s.half x := by
  have hf : s.InFlight e.id := Or.inr (List.mem_map_of_mem he)
  obtain ⟨hx8,hne⟩ := h.completed_ne hx hf
  obtain ⟨hlo,hhi⟩ := h.lens x hx
  exact frameOf_store h.apart h.described (h.lt_of_inFlight hf) hx8 hne hhi (Nat.le_of_lt hlo) hfit

theorem RxInv.write {e : Held} {off : Nat} {xs : List UInt8} (h : RxInv s)
    (he : e ∈ s.dev.held) (hfit : off+xs.length ≤ (s.half.q.desc e.id).len) :
    RxInv (s.write e off xs) := by
  refine ⟨h.apart, h.availLt, h.usedLt, h.consumeLt, h.lastLt, h.described, h.slots, h.lens,
    ?_, ?_⟩
  · refine h.frames.trans (congrArg (fun l => s.received ++ (s.pc.inHand ++ l)) ?_)
    exact List.map_congr_left fun x hx => (h.frameOf_write he hfit hx).symm
  · have hst := h.stage
    change Stage (s.write e off xs).half s.pc
    cases hpc : s.pc with
    | describe slot out | offer slot out =>
      rw [hpc] at hst
      obtain ⟨x,hx,hs,ho⟩ := hst
      exact ⟨x, hx, hs, ho.trans (h.frameOf_write he hfit (mem_of_head hx)).symm⟩
    | idle | poll | inspect | copy | publish | returning =>
      rw [hpc] at hst
      exact hst

theorem RxInv.usedRoom {e : Held} (h : RxInv s) (he : e ∈ s.dev.held) :
    s.half.q.returned.length < virtioNetQueueSize := by
  have hl := h.length_eq
  have hpos : 0 < s.heldIds.length := List.length_pos_of_mem (List.mem_map_of_mem he)
  simp only [RxState.circulating, List.length_append, RxState.completed, List.length_map] at hl
  omega

theorem RxInv.complete {e : Held} {len : Nat} (h : RxInv s) (he : e ∈ s.dev.held)
    (hlo : sizeofVirtioNetHdr < len) (hhi : len ≤ (s.half.q.desc e.id).len) :
    RxInv (s.complete e len) := by
  have hret := returned_complete h.consumeLt h.usedLt (h.usedRoom he) e.id len
  have hcomp : (s.complete e len).completed = s.completed ++ [e.id] :=
    (congrArg (List.map VirtioNetUsedElem.id) hret).trans List.map_append
  have hheld : s.heldIds.Perm (e.id :: (s.complete e len).heldIds) :=
    (List.perm_cons_erase he).map Held.id
  have hd := h.described _ (h.lt_of_inFlight (Or.inr (List.mem_map_of_mem he)))
  rw [hd] at hhi
  have hhead (x : VirtioNetUsedElem) (hx : s.half.q.returned.head? = some x) :
      (s.half.q.complete e.id len).returned.head? = some x := by
    rw [hret, List.head?_append, hx]
    rfl
  refine ⟨h.apart, h.availLt, bump_lt (by decide) _, h.consumeLt, h.lastLt, h.described, ?_,
    fun x hx => ?_, ?_, ?_⟩
  · refine h.slots.perm ?_
    rw [RxState.circulating, RxState.circulating, hcomp]
    exact (perm_to_last s.posted s.completed hheld).append_left s.pc.hand
  · rw [show (s.complete e len).half.q.returned = _ from hret] at hx
    cases List.mem_append.mp hx with
    | inl hold => exact h.lens x hold
    | inr hnew =>
      rw [List.mem_singleton.mp hnew]
      exact ⟨hlo, hhi⟩
  · rw [show (s.complete e len).half.q.returned = _ from hret, List.map_append, List.map_singleton]
    simp only [RxState.complete, hd]
    rw [h.frames, List.append_assoc, List.append_assoc]
    rfl
  · have hst := h.stage
    change Stage (s.complete e len).half s.pc
    cases hpc : s.pc with
    | inspect maxLen =>
      intro heq
      have hnil := (returned_eq_nil (q := s.half.q.complete e.id len) h.consumeLt
        (bump_lt (by decide) _)).mpr heq
      rw [hret] at hnil
      exact List.append_ne_nil_of_right_ne_nil _ (List.cons_ne_nil _ _) hnil
    | copy slot n =>
      rw [hpc] at hst
      obtain ⟨x,hx,hrest⟩ := hst
      exact ⟨x, hhead x hx, hrest⟩
    | describe slot out | offer slot out =>
      rw [hpc] at hst
      obtain ⟨x,hx,hrest⟩ := hst
      exact ⟨x, hhead x hx, hrest⟩
    | idle | poll | publish | returning =>
      rw [hpc] at hst
      exact hst

theorem init_posted (h : Half) :
    (initRxBuffersLocked h).q.posted Device.reset.lastAvail = List.range virtioNetQueueSize := by
  have hahead : ahead indexSpace 0 virtioNetQueueSize = virtioNetQueueSize :=
    ahead_of_le (by decide) (by decide)
  have hcell (i : Nat) (hi : i < virtioNetQueueSize) :
      (initRxBuffersLocked h).q.avail.ring ((0+i) % virtioNetQueueSize) = i := by
    rw [Nat.zero_add, Nat.mod_eq_of_lt hi]
    exact if_pos hi
  refine Eq.trans (b := (List.range virtioNetQueueSize).map id) ?_ (List.map_id _)
  rw [← hahead]
  exact List.map_congr_left fun i hi => hcell i (hahead ▸ List.mem_range.mp hi)

theorem RxInv.init (h : Half) (ha : Apart h.buffers) :
    RxInv ⟨initRxBuffersLocked h, .idle, .reset, [], []⟩ := by
  have hzero : 0 < indexSpace := by decide
  have height : virtioNetQueueSize < indexSpace := by decide
  have hret : (initRxBuffersLocked h).q.returned = [] := window_self hzero
  have hpa (j : Nat) : ((initRxBuffersLocked h).buffers j).pa = (h.buffers j).pa := by
    simp only [initRxBuffersLocked]
    split <;> rfl
  refine ⟨apart_congr ha hpa, height, hzero, hzero, hzero, fun k hk => ?_, ?_, fun e he => ?_,
    ?_, trivial⟩
  · rw [hpa]
    exact if_pos hk
  · simp only [RxState.circulating, RxState.posted, RxState.completed, hret, init_posted]
    refine ⟨?_, fun k => ?_⟩
    · simpa [RxPc.hand, RxState.heldIds, Device.reset] using List.nodup_range
    · simp [RxPc.hand, RxState.heldIds, Device.reset]
  · rw [hret] at he
    cases he
  · rw [hret]
    rfl

theorem rxInv_step {s t : RxState} (h : RxInv s) (hs : RxStep s t) : RxInv t := by
  cases hs with
  | call out maxLen hpc => exact h.netRecvRaw hpc out maxLen
  | advance _ => exact h.advance
  | take hne => exact h.take hne
  | write e off xs he hfit => exact h.write he hfit
  | complete e len he hlo hhi => exact h.complete he hlo hhi

theorem rxInv_invariant : rxSystem.Invariant RxInv where
  init := by
    rintro s ⟨h,ha,rfl⟩
    exact .init h ha
  step _ _ := rxInv_step

/-! What the ring promises. -/

theorem RxInv.reposted {t : RxState} (h : RxInv s) (hs : RxStep s t) (hk : k ∈ t.posted) :
    k ∈ s.posted ∨ ∃ out, s.pc = .publish k out := by
  cases hs with
  | call out maxLen hpc =>
    unfold RxState.netRecvRaw at hk
    split at hk <;> exact Or.inl hk
  | take hne =>
    have hpop := posted_pop h.lastLt h.availLt hne
    rw [RxState.posted, hpop]
    exact Or.inl (List.mem_cons_of_mem _ hk)
  | write | complete => exact Or.inl hk
  | advance _ =>
    have hst := h.stage
    cases hpc : s.pc with
    | publish slot out =>
      rw [hpc] at hst
      have hpush := posted_publish h.lastLt h.availLt (h.room (by
        rw [hpc]
        exact Nat.add_pos_left Nat.one_pos _))
      rw [hst.1] at hpush
      simp only [RxState.advance, hpc] at hk
      rw [RxState.posted, hpush] at hk
      cases List.mem_append.mp hk with
      | inl hold => exact Or.inl hold
      | inr hnew => exact Or.inr ⟨out, by rw [List.mem_singleton.mp hnew]⟩
    | offer slot out =>
      rw [hpc] at hst
      obtain ⟨e,he,-⟩ := hst
      have hpos : 0 < s.completed.length := List.length_pos_of_mem
        (List.mem_map_of_mem (mem_of_head he))
      simp only [RxState.advance, hpc, RxState.posted] at hk
      rw [posted_offer (q := s.half.q.skip) h.lastLt h.availLt (h.room (by omega))] at hk
      exact Or.inl hk
    | inspect maxLen =>
      rw [advance_inspect h hpc] at hk
      exact Or.inl hk
    | poll maxLen =>
      simp only [RxState.advance, hpc] at hk
      split at hk <;> exact Or.inl hk
    | idle | copy | describe | returning =>
      simp only [RxState.advance, hpc] at hk
      exact Or.inl hk

theorem RxInv.consumed {t : RxState} (h : RxInv s) (hs : RxStep s t)
    (hne : t.half.q.usedConsume ≠ s.half.q.usedConsume) :
    ∃ e, s.half.q.returned.head? = some e ∧ s.pc = .offer e.id (frameOf s.half e) := by
  cases hs with
  | take | write | complete => exact absurd rfl hne
  | call out maxLen hpc =>
    unfold RxState.netRecvRaw at hne
    split at hne <;> exact absurd rfl hne
  | advance _ =>
    have hst := h.stage
    cases hpc : s.pc with
    | offer slot out =>
      rw [hpc] at hst
      obtain ⟨e,he,rfl,rfl⟩ := hst
      exact ⟨e, he, rfl⟩
    | inspect maxLen =>
      rw [advance_inspect h hpc] at hne
      exact absurd rfl hne
    | poll maxLen =>
      simp only [RxState.advance, hpc] at hne
      split at hne <;> exact absurd rfl hne
    | idle | copy | describe | publish | returning =>
      simp only [RxState.advance, hpc] at hne
      exact absurd rfl hne

theorem RxInv.small {e : VirtioNetUsedElem} (h : RxInv s) (he : s.half.q.returned.head? = some e)
    (hsmall : maxLen < (frameOf s.half e).length) :
    (s.pc = .poll maxLen → s.advance = { s with pc := .inspect maxLen }) ∧
      (s.pc = .inspect maxLen → s.advance = { s with pc := .returning (-1) [] }) := by
  have hne : s.half.q.usedConsume ≠ s.half.q.used.idx := by
    intro heq
    rw [(returned_eq_nil h.consumeLt h.usedLt).mpr heq] at he
    cases he
  refine ⟨fun hpc => ?_, fun hpc => ?_⟩
  · simp only [RxState.advance, hpc, VirtioQueue.completed, bne_iff_ne, if_pos hne]
  · rw [(h.usedElem hne).1] at he
    cases he
    rw [frameOf, length_load] at hsmall
    rw [advance_inspect h hpc, inspected, if_pos hsmall]

structure LiveRx (s : RxState) : Prop where
  /-- Each of the 8 buffers is posted, taken by the device, completed and not consumed, or
  in the hands of the call that re-posts it. -/
  partition : (s.pc.hand ++ (s.posted ++ (s.heldIds ++ s.completed))).Perm
    (List.range virtioNetQueueSize)
  /-- The completions, in order, are the frames returned, the one being returned and those
  whose bytes still lie in their buffers. -/
  frames : s.completions = s.received ++ (s.pc.inHand ++ s.half.q.returned.map (frameOf s.half))
  /-- A result of a call is the length of the frame it returns, or -1 without one. -/
  result : ∀ result out, s.pc = .returning result out →
    result = (out.length : Int) ∨ result = -1 ∧ out = []
  reposted : ∀ t k, RxStep s t → k ∈ t.posted → k ∈ s.posted ∨ ∃ out, s.pc = .publish k out
  consumed : ∀ t, RxStep s t → t.half.q.usedConsume ≠ s.half.q.usedConsume →
    ∃ e, s.half.q.returned.head? = some e ∧ s.pc = .offer e.id (frameOf s.half e)
  small : ∀ maxLen e, s.half.q.returned.head? = some e → maxLen < (frameOf s.half e).length →
    (s.pc = .poll maxLen → s.advance = { s with pc := .inspect maxLen }) ∧
      (s.pc = .inspect maxLen → s.advance = { s with pc := .returning (-1) [] })

/-- The receive ring keeps its promises in every interleaving of calls and device. -/
theorem live_rx (h : rxSystem.Reachable s) : LiveRx s := by
  have hi := rxInv_invariant.reachable h
  refine {
    partition := hi.slots.perm_filter.trans (by rw [List.filter_true])
    frames := hi.frames
    result := fun result out hpc => ?_
    reposted := fun t k hs hk => hi.reposted hs hk
    consumed := fun t hs hne => hi.consumed hs hne
    small := fun maxLen e he hsmall => hi.small he hsmall }
  have hst := hi.stage
  rw [hpc] at hst
  exact hst

def rxFrameRun : RxState :=
  let s : RxState := ⟨initRxBuffersLocked freshHalf, .idle, .reset, [], []⟩
  let s := (s.take.write ⟨0, 0⟩ 12 [1, 2, 3]).complete ⟨0, 0⟩ 15
  RxState.advance^[7] (s.netRecvRaw true 2048)

theorem live_rx_frame : LiveRx rxFrameRun ∧ rxFrameRun.received = [[1, 2, 3]] ∧
    rxFrameRun.posted = [1, 2, 3, 4, 5, 6, 7, 0] := by
  refine ⟨live_rx ?_, by decide +kernel, by decide +kernel⟩
  have hinit : rxSystem.Reachable ⟨initRxBuffersLocked freshHalf, .idle, .reset, [], []⟩ :=
    .init ⟨freshHalf, freshHalf_apart, rfl⟩
  have htake := hinit.step (.take _ (by decide))
  have hwrite := htake.step (.write _ ⟨0, 0⟩ 12 [1, 2, 3] (by decide +kernel) (by decide +kernel))
  have hdone := hwrite.step
    (.complete _ ⟨0, 0⟩ 15 (by decide +kernel) (by decide) (by decide +kernel))
  have hcall := hdone.step (.call _ true 2048 (by decide +kernel))
  exact System.reachable_iterate RxStep.advance hcall 7 (by decide +kernel)

end NetKernel.RxRing
