import NetKernel.Lib.BoundedFifo
import NetKernel.Net.TxRing

/-! The fake backend of the driver: both rings in `g_net`, where `net_send_raw` completes
at once and `net_fake_inject_rx` plays the device. Calls hold `g_net.lock` throughout. -/
namespace NetKernel.FakeBackend
open FlatMemory IndexRing Slots Virtio BoundedFifo
open TxRing (Frame validData)

/-- The kinds with rings in `g_net`; the third one, `Virtio`, works on `g_hw`. -/
inductive BackendKind where
  | none
  | fake
deriving DecidableEq, Repr

structure FrameSlot where
  data : Nat → UInt8
  len : Nat
  occupied : Bool

/-- The `tx_` or the `rx_` fields of `NetState`; `count` is `tx_pending` or `rx_ready`.
The descriptors, which nothing reads back, are left out. -/
structure Side where
  avail : VirtioNetAvailRing
  used : VirtioNetUsedRing
  slots : Nat → FrameSlot
  nextProbe : Nat
  usedConsume : Nat
  count : Nat

structure NetState where
  backend : BackendKind
  tx : Side
  rx : Side
  lastFakeTx : Nat → UInt8
  lastFakeTxLen : Nat
  lastFakeTxValid : Bool

def nextIndex (idx : Nat) : Nat := (idx+1) % virtioNetQueueSize

def resetSlot (slot : FrameSlot) : FrameSlot := { slot with len := 0, occupied := false }

/-- One side after `reset_rings_locked`, which posts the receive slots only. -/
def Side.reset (s : Side) (avail : VirtioNetAvailRing) : Side where
  avail := avail
  used := ⟨0, 0, fun _ => ⟨0, 0⟩⟩
  slots := fun i => if i < virtioNetQueueSize then resetSlot (s.slots i) else s.slots i
  nextProbe := 0
  usedConsume := 0
  count := 0

def resetRingsLocked (s : NetState) : NetState :=
  { s with
    tx := s.tx.reset ⟨0, 0, fun _ => 0⟩
    rx := s.rx.reset ⟨0, virtioNetQueueSize, fun i => if i < virtioNetQueueSize then i else 0⟩
    lastFakeTxLen := 0
    lastFakeTxValid := false }

/-- `find_free_tx_slot_locked` and `find_free_rx_slot_locked`: the slot found and the
side with its probe point moved. -/
def Side.findFreeSlotLocked (s : Side) : Option (Nat × Side) :=
  if virtioNetQueueSize ≤ s.count then none
  else
    let slots := (List.range virtioNetQueueSize).map fun scanned =>
      (s.nextProbe+scanned) % virtioNetQueueSize
    (slots.find? fun slot => !(s.slots slot).occupied).map fun slot =>
      (slot, { s with nextProbe := nextIndex slot })

def Side.fill (s : Side) (slot : Nat) (data : Frame) : Side :=
  let filled : FrameSlot := ⟨store (s.slots slot).data 0 data, data.length % indexSpace, true⟩
  { s with slots := Function.update s.slots slot filled }

def Side.post (s : Side) (slot : Nat) : Side :=
  { s with avail := { s.avail with
      ring := Function.update s.avail.ring (s.avail.idx % virtioNetQueueSize) slot
      idx := bump indexSpace s.avail.idx } }

def Side.complete (s : Side) (slot len : Nat) : Side :=
  { s with used := { s.used with
      ring := Function.update s.used.ring (s.used.idx % virtioNetQueueSize) ⟨slot, len⟩
      idx := bump indexSpace s.used.idx } }

/-- `used.ring[used_consume % 8]`. -/
def Side.usedElem (s : Side) : VirtioNetUsedElem :=
  s.used.ring (s.usedConsume % virtioNetQueueSize)

/-- `++used_consume`. -/
def Side.skip (s : Side) : Side := { s with usedConsume := bump indexSpace s.usedConsume }

def Side.release (s : Side) (slot : Nat) : Side :=
  { s with
    slots := Function.update s.slots slot (resetSlot (s.slots slot))
    count := if 0 < s.count then s.count-1 else s.count }

/-- The body of the loop of `reclaim_tx_locked`. -/
def Side.reclaimOne (s : Side) : Side :=
  let slot := s.usedElem.id % indexSpace
  if slot < virtioNetQueueSize ∧ (s.slots slot).occupied = true then (s.release slot).skip
  else s.skip

/-- `reclaim_tx_locked`, at most `fuel` rounds of it. -/
def Side.reclaimTxLocked : Nat → Side → Side
  | 0, s => s
  | fuel+1, s =>
    if s.usedConsume = s.used.idx then s else Side.reclaimTxLocked fuel s.reclaimOne

def netInitFake (s : NetState) : NetState := { resetRingsLocked s with backend := .fake }

def NetState.netSendRaw (s : NetState) (data : Option Frame) : Bool × NetState :=
  if validData data = false then (false, s)
  else if s.backend ≠ .fake then (false, s)
  else
    let s := { s with tx := s.tx.reclaimTxLocked indexSpace }
    match s.tx.findFreeSlotLocked with
    | none => (false, s)
    | some (slot, tx) =>
      let data := data.getD []
      let tx := (tx.fill slot data).post slot
      let tx := { tx with count := bump indexSpace tx.count }
      -- the fake backend completes the transmission without hardware
      (true, { s with
        lastFakeTx := store s.lastFakeTx 0 data
        lastFakeTxLen := data.length % indexSpace
        lastFakeTxValid := true
        tx := (tx.complete slot data.length).reclaimTxLocked indexSpace })

/-- The result and the bytes copied; `out` tells whether the pointer is non-null. -/
def NetState.netRecvRaw (s : NetState) (out : Bool) (maxLen : Nat) : Int × Frame × NetState :=
  if out = false ∨ maxLen = 0 then (-1, [], s)
  else if s.backend ≠ .fake then (0, [], s)
  else if s.rx.usedConsume = s.rx.used.idx then (0, [], s)
  else
    let slot := s.rx.usedElem.id % indexSpace
    let len := s.rx.usedElem.len
    if virtioNetQueueSize ≤ slot ∨ (s.rx.slots slot).occupied = false then
      (0, [], { s with rx := s.rx.skip })
    else if maxLen < len then (-1, [], s)
    else (len, load (s.rx.slots slot).data 0 len,
      { s with rx := (s.rx.skip.post slot).release slot })

def NetState.netFakeInjectRx (s : NetState) (data : Option Frame) : Bool × NetState :=
  if validData data = false then (false, s)
  else if s.backend ≠ .fake then (false, s)
  else match s.rx.findFreeSlotLocked with
    | none => (false, s)
    | some (slot, rx) =>
      let data := data.getD []
      let rx := (rx.fill slot data).complete slot data.length
      (true, { s with rx := { rx with count := bump indexSpace rx.count } })

def NetState.netCopyLastTxForTest (s : NetState) (out : Bool) (len : Nat) : Option Frame :=
  if out = false ∨ s.lastFakeTxValid = false ∨ len < s.lastFakeTxLen then none
  else some (load s.lastFakeTx 0 s.lastFakeTxLen)

/-! Views of a side. -/

def Side.returned (s : Side) : List VirtioNetUsedElem :=
  window virtioNetQueueSize indexSpace s.used.ring s.usedConsume s.used.idx

def Side.posted (s : Side) : List Nat :=
  window virtioNetQueueSize indexSpace s.avail.ring s.used.idx s.avail.idx

def Side.frame (s : Side) (e : VirtioNetUsedElem) : Frame := load (s.slots e.id).data 0 e.len

def Side.queued (s : Side) : List Frame := s.returned.map s.frame

def Side.occupied (s : Side) (slot : Nat) : Bool := (s.slots slot).occupied

def Side.occupiedCount (s : Side) : Nat := (List.range virtioNetQueueSize).countP s.occupied

variable {r : Side} {s : NetState} {data : Frame}

@[simp] theorem length_returned :
    r.returned.length = ahead indexSpace r.usedConsume r.used.idx := length_window

/-! The received side, in step: the frame a side gets `i` completions after the consumed
ones lies in the slot of that index. -/

structure RxInv (r : Side) : Prop where
  usedLt : r.used.idx < indexSpace
  consumeLt : r.usedConsume < indexSpace
  availIdx : r.avail.idx = (r.usedConsume+virtioNetQueueSize) % indexSpace
  count : r.count = r.returned.length
  probe : r.nextProbe = r.used.idx % virtioNetQueueSize
  ids : ∀ i < r.returned.length, (r.used.ring ((r.usedConsume+i) % virtioNetQueueSize)).id =
    (r.usedConsume+i) % virtioNetQueueSize
  avail : ∀ k < virtioNetQueueSize, r.avail.ring k = k
  slots : Circulation virtioNetQueueSize r.occupied (r.returned.map VirtioNetUsedElem.id)

theorem RxInv.occupiedCount (h : RxInv r) : r.occupiedCount = r.returned.length := by
  rw [Side.occupiedCount, h.slots.count, List.length_map]

theorem RxInv.mem_ids (h : RxInv r) {k : Nat} (hk : k ∈ r.returned.map VirtioNetUsedElem.id) :
    ∃ i < r.returned.length, (r.usedConsume+i) % virtioNetQueueSize = k := by
  obtain ⟨e,he,rfl⟩ := List.mem_map.mp hk
  obtain ⟨i,hi,rfl⟩ := mem_window.mp he
  rw [← length_returned] at hi
  exact ⟨i, hi, (h.ids i hi).symm⟩

theorem RxInv.not_mem (h : RxInv r) (hroom : r.returned.length < virtioNetQueueSize) :
    r.used.idx % virtioNetQueueSize ∉ r.returned.map VirtioNetUsedElem.id := by
  intro hm
  obtain ⟨i,hi,he⟩ := h.mem_ids hm
  rw [length_returned] at hroom hi
  exact cell_ne dvd_indexSpace h.consumeLt h.usedLt hroom hi he

theorem RxInv.free (h : RxInv r) (hroom : r.returned.length < virtioNetQueueSize) :
    r.occupied (r.used.idx % virtioNetQueueSize) = false := by
  rw [← Bool.not_eq_true]
  intro ho
  exact h.not_mem hroom ((h.slots.mem _).mpr ⟨Nat.mod_lt _ (by decide), ho⟩)

theorem RxInv.findFreeSlotLocked (h : RxInv r) (hroom : r.returned.length < virtioNetQueueSize) :
    r.findFreeSlotLocked = some (r.used.idx % virtioNetQueueSize,
      { r with nextProbe := nextIndex (r.used.idx % virtioNetQueueSize) }) := by
  have hcell : (r.nextProbe+0) % virtioNetQueueSize = r.used.idx % virtioNetQueueSize := by
    rw [h.probe, Nat.add_zero, Nat.mod_mod]
  have hfree := h.free hroom
  rw [Side.findFreeSlotLocked, if_neg (by rw [h.count]; omega), List.range_succ_eq_map,
    List.map_cons, hcell]
  dsimp only
  rw [List.find?_cons_of_pos, Option.map_some]
  rw [Side.occupied] at hfree
  rw [hfree, Bool.not_false]

theorem RxInv.posted_head (h : RxInv r) (hroom : r.returned.length < virtioNetQueueSize) :
    r.posted.head? = some (r.used.idx % virtioNetQueueSize) := by
  have hlt : r.avail.idx < indexSpace := by
    rw [h.availIdx]
    exact Nat.mod_lt _ (by decide)
  have hne : r.used.idx ≠ r.avail.idx := by
    intro he
    have hl := h.usedLt
    have hc := h.consumeLt
    rw [h.availIdx] at he
    rw [length_returned, ahead, he] at hroom
    simp only [virtioNetQueueSize, indexSpace] at hroom hc
    omega
  rw [Side.posted, window_pop dvd_indexSpace h.usedLt hlt hne, List.head?_cons,
    h.avail _ (Nat.mod_lt _ (by decide))]

def Side.inject (r : Side) (data : Frame) : Side :=
  let slot := r.used.idx % virtioNetQueueSize
  let rx := ({ r with nextProbe := nextIndex slot }.fill slot data).complete slot data.length
  { rx with count := bump indexSpace rx.count }

theorem netFakeInjectRx_of_room {d : Option Frame} (hb : s.backend = .fake) (h : RxInv s.rx)
    (hv : validData d = true) (hroom : s.rx.returned.length < virtioNetQueueSize) :
    s.netFakeInjectRx d = (true, { s with rx := s.rx.inject (d.getD []) }) := by
  simp only [NetState.netFakeInjectRx, hv, hb, h.findFreeSlotLocked hroom, Side.inject,
    Bool.true_eq_false, if_false, ne_eq, not_true]

theorem netFakeInjectRx_full (h : RxInv s.rx) (d : Option Frame)
    (hfull : ¬s.rx.returned.length < virtioNetQueueSize) : s.netFakeInjectRx d = (false, s) := by
  rw [NetState.netFakeInjectRx]
  split
  · rfl
  split
  · rfl
  rw [Side.findFreeSlotLocked, if_pos (by rw [h.count]; omega)]

theorem netFakeInjectRx_invalid {d : Option Frame} (hv : validData d = false) :
    s.netFakeInjectRx d = (false, s) := if_pos hv

theorem RxInv.returned_inject (h : RxInv r) (hroom : r.returned.length < virtioNetQueueSize) :
    (r.inject data).returned =
      r.returned ++ [⟨r.used.idx % virtioNetQueueSize, data.length⟩] :=
  window_write dvd_indexSpace h.consumeLt h.usedLt (length_returned ▸ hroom) (by decide) _

theorem RxInv.queued_inject (h : RxInv r) (hroom : r.returned.length < virtioNetQueueSize) :
    (r.inject data).queued = r.queued ++ [data] := by
  rw [Side.queued, h.returned_inject hroom, List.map_append, List.map_singleton, Side.queued]
  refine congrArg₂ _ (List.map_congr_left fun e he => ?_) (congrArg (fun f => [f]) ?_)
  · have hne : e.id ≠ r.used.idx % virtioNetQueueSize := by
      intro heq
      exact h.not_mem hroom (heq ▸ List.mem_map_of_mem he)
    simp only [Side.frame, Side.inject, Side.complete, Side.fill, Function.update_of_ne hne]
  · simp only [Side.frame, Side.inject, Side.complete, Side.fill, Function.update_self, load_store]

theorem RxInv.inject (h : RxInv r) (hroom : r.returned.length < virtioNetQueueSize) :
    RxInv (r.inject data) := by
  have hret : (r.inject data).returned = _ := h.returned_inject hroom
  have hcell : (r.usedConsume+r.returned.length) % virtioNetQueueSize =
      r.used.idx % virtioNetQueueSize := by
    rw [length_returned]
    exact mod_add_ahead dvd_indexSpace h.consumeLt h.usedLt
  exact {
    usedLt := bump_lt (by decide) _
    consumeLt := h.consumeLt
    availIdx := h.availIdx
    count := by
      rw [hret, List.length_append, List.length_singleton, ← h.count]
      refine bump_of_lt ?_
      rw [h.count]
      exact Nat.lt_of_lt_of_le (Nat.succ_lt_succ hroom) (by decide)
    probe := by
      change (r.used.idx % virtioNetQueueSize+1) % virtioNetQueueSize =
        (r.used.idx+1) % indexSpace % virtioNetQueueSize
      rw [Nat.mod_add_mod, Nat.mod_mod_of_dvd _ dvd_indexSpace]
    ids := fun i hi => by
      change (Function.update r.used.ring (r.used.idx % virtioNetQueueSize) _
        ((r.usedConsume+i) % virtioNetQueueSize)).id = (r.usedConsume+i) % virtioNetQueueSize
      rw [hret, List.length_append, List.length_singleton] at hi
      by_cases hlast : i = r.returned.length
      · subst hlast
        rw [hcell, Function.update_self]
      · have hlt : i < r.returned.length := by omega
        rw [Function.update_of_ne]
        · exact h.ids i hlt
        · rw [length_returned] at hroom hlt
          exact cell_ne dvd_indexSpace h.consumeLt h.usedLt hroom hlt
    avail := h.avail
    slots := by
      have hc := h.slots.claim (Nat.mod_lt _ (by decide)) (h.free hroom)
      have hflag : (r.inject data).occupied =
          Function.update r.occupied (r.used.idx % virtioNetQueueSize) true := by
        funext k
        by_cases hk : k = r.used.idx % virtioNetQueueSize
        · subst hk
          simp only [Side.occupied, Side.inject, Side.complete, Side.fill, Function.update_self]
        · simp only [Side.occupied, Side.inject, Side.complete, Side.fill,
            Function.update_of_ne hk]
      rw [hret, hflag, List.map_append, List.map_singleton]
      exact hc.perm (List.perm_append_singleton _ _).symm }

/-! A call that receives. -/

def Side.recycle (r : Side) : Side :=
  let slot := r.usedConsume % virtioNetQueueSize
  (r.skip.post slot).release slot

theorem RxInv.oldest (h : RxInv r) (hne : r.usedConsume ≠ r.used.idx) :
    r.usedElem.id = r.usedConsume % virtioNetQueueSize ∧
      r.occupied (r.usedConsume % virtioNetQueueSize) = true ∧
      r.returned = r.usedElem :: r.skip.returned := by
  have hpop : r.returned = r.usedElem :: r.skip.returned :=
    window_pop dvd_indexSpace h.consumeLt h.usedLt hne
  have hid : r.usedElem.id = r.usedConsume % virtioNetQueueSize := by
    have h0 := h.ids 0 (by rw [hpop]; exact Nat.succ_pos _)
    exact h0
  refine ⟨hid, ?_, hpop⟩
  refine ((h.slots.mem _).mp ?_).2
  rw [hpop, List.map_cons, hid]
  exact List.mem_cons_self

theorem netRecvRaw_empty {maxLen : Nat} (hb : s.backend = .fake) (hm : 0 < maxLen)
    (he : s.rx.usedConsume = s.rx.used.idx) : s.netRecvRaw true maxLen = (0, [], s) := by
  rw [NetState.netRecvRaw, if_neg (by simp only [Bool.true_eq_false, false_or]; omega),
    if_neg (by rw [hb]; simp), if_pos he]

theorem netRecvRaw_some {maxLen : Nat} (hb : s.backend = .fake) (h : RxInv s.rx) (hm : 0 < maxLen)
    (hne : s.rx.usedConsume ≠ s.rx.used.idx) :
    s.netRecvRaw true maxLen = if maxLen < s.rx.usedElem.len then ((-1 : Int), [], s)
      else ((s.rx.usedElem.len : Int), s.rx.frame s.rx.usedElem,
        { s with rx := s.rx.recycle }) := by
  obtain ⟨hid,hocc,-⟩ := h.oldest hne
  have hlt : s.rx.usedConsume % virtioNetQueueSize < virtioNetQueueSize := Nat.mod_lt _ (by decide)
  have hslot : s.rx.usedElem.id % indexSpace = s.rx.usedConsume % virtioNetQueueSize := by
    rw [hid]
    exact Nat.mod_eq_of_lt (Nat.lt_trans hlt (by decide))
  have hgood : ¬(virtioNetQueueSize ≤ s.rx.usedConsume % virtioNetQueueSize ∨
      (s.rx.slots (s.rx.usedConsume % virtioNetQueueSize)).occupied = false) := by
    rw [Side.occupied] at hocc
    rw [hocc, Bool.true_eq_false, or_false]
    exact Nat.not_le.mpr hlt
  rw [NetState.netRecvRaw, if_neg (by simp only [Bool.true_eq_false, false_or]; omega),
    if_neg (by rw [hb]; simp), if_neg hne]
  dsimp only
  rw [hslot, if_neg hgood, Side.frame, hid, Side.recycle]

theorem RxInv.queued_recycle (h : RxInv r) (hne : r.usedConsume ≠ r.used.idx) :
    r.queued = r.frame r.usedElem :: r.recycle.queued := by
  obtain ⟨-,-,hpop⟩ := h.oldest hne
  rw [Side.queued, hpop, List.map_cons]
  refine congrArg _ (List.map_congr_left fun e _ => ?_)
  -- releasing a slot leaves its bytes
  by_cases he : e.id = r.usedConsume % virtioNetQueueSize
  · simp only [Side.frame, Side.recycle, Side.release, Side.post, Side.skip, he,
      Function.update_self, resetSlot]
  · simp only [Side.frame, Side.recycle, Side.release, Side.post, Side.skip,
      Function.update_of_ne he]

theorem RxInv.recycle (h : RxInv r) (hne : r.usedConsume ≠ r.used.idx) : RxInv r.recycle := by
  obtain ⟨hid,-,hpop⟩ := h.oldest hne
  have hret : r.recycle.returned = r.skip.returned := rfl
  have hlen : r.returned.length = r.skip.returned.length+1 := by rw [hpop, List.length_cons]
  exact {
    usedLt := h.usedLt
    consumeLt := bump_lt (by decide) _
    availIdx := by
      change (r.avail.idx+1) % indexSpace =
        ((r.usedConsume+1) % indexSpace+virtioNetQueueSize) % indexSpace
      rw [h.availIdx, Nat.mod_add_mod, Nat.mod_add_mod, Nat.add_right_comm]
    count := by
      change (if 0 < r.count then r.count-1 else r.count) = _
      rw [hret, h.count, hlen, if_pos (Nat.succ_pos _), Nat.add_sub_cancel]
    probe := h.probe
    ids := fun i hi => by
      have hi' := h.ids (i+1) (by rw [hlen]; exact Nat.succ_lt_succ hi)
      change (r.used.ring ((bump indexSpace r.usedConsume+i) % virtioNetQueueSize)).id =
        (bump indexSpace r.usedConsume+i) % virtioNetQueueSize
      rw [mod_bump_add dvd_indexSpace h.consumeLt]
      exact hi'
    avail := fun k hk => by
      change Function.update r.avail.ring (r.avail.idx % virtioNetQueueSize)
        (r.usedConsume % virtioNetQueueSize) k = k
      have hcell : r.avail.idx % virtioNetQueueSize = r.usedConsume % virtioNetQueueSize := by
        rw [h.availIdx, Nat.mod_mod_of_dvd _ dvd_indexSpace, Nat.add_mod_right]
      by_cases hkc : k = r.usedConsume % virtioNetQueueSize
      · rw [hcell, hkc, Function.update_self]
      · rw [hcell, Function.update_of_ne hkc, h.avail k hk]
    slots := by
      have hs := h.slots
      rw [hpop, List.map_cons, hid] at hs
      have hflag : r.recycle.occupied =
          Function.update r.occupied (r.usedConsume % virtioNetQueueSize) false := by
        funext k
        by_cases hk : k = r.usedConsume % virtioNetQueueSize
        · subst hk
          simp only [Side.occupied, Side.recycle, Side.release, Side.post, Side.skip,
            Function.update_self, resetSlot]
        · simp only [Side.occupied, Side.recycle, Side.release, Side.post, Side.skip,
            Function.update_of_ne hk]
      rw [hret, hflag]
      exact hs.release }

/-! A call that sends. -/

theorem netSendRaw_rx (s : NetState) (d : Option Frame) :
    (s.netSendRaw d).2.rx = s.rx ∧ (s.netSendRaw d).2.backend = s.backend := by
  rw [NetState.netSendRaw]
  split
  · exact ⟨rfl, rfl⟩
  split
  · exact ⟨rfl, rfl⟩
  dsimp only
  cases (s.tx.reclaimTxLocked indexSpace).findFreeSlotLocked with
  | none => exact ⟨rfl, rfl⟩
  | some p => exact ⟨rfl, rfl⟩

theorem returned_netInitFake (s : NetState) : (netInitFake s).rx.returned = [] :=
  window_self (Nat.succ_pos 65535)

theorem rxInv_netInitFake (s : NetState) : RxInv (netInitFake s).rx where
  usedLt := Nat.succ_pos 65535
  consumeLt := Nat.succ_pos 65535
  availIdx := rfl
  count := by rw [returned_netInitFake, List.length_nil]; rfl
  probe := rfl
  ids := fun i hi => by
    rw [returned_netInitFake] at hi
    exact absurd hi (Nat.not_lt_zero _)
  avail := fun k hk => if_pos hk
  slots := by
    rw [returned_netInitFake]
    refine ⟨List.nodup_nil, fun k => ⟨fun h => absurd h List.not_mem_nil, fun ⟨hk,ho⟩ => ?_⟩⟩
    have hfree : (netInitFake s).rx.slots k = resetSlot (s.rx.slots k) := if_pos hk
    rw [Side.occupied, hfree] at ho
    cases ho

/-! Runs of calls, beside a queue of 8 frames. -/

inductive NetCall where
  | injectRx (data : Option Frame)
  | recvRaw (out : Bool) (maxLen : Nat)
  | sendRaw (data : Option Frame)

def NetState.call (s : NetState) : NetCall → NetState
  | .injectRx data => (s.netFakeInjectRx data).2
  | .recvRaw out maxLen => (s.netRecvRaw out maxLen).2.2
  | .sendRaw data => (s.netSendRaw data).2

def NetState.after (s : NetState) (calls : List NetCall) : NetState := calls.foldl NetState.call s

abbrev FrameQueue := Fifo Frame virtioNetQueueSize

/-- What a call does to the queue of received frames. -/
def serve (q : FrameQueue) : NetCall → FrameQueue
  | .injectRx data => if validData data then q.push (data.getD []) else q
  | .recvRaw out maxLen =>
    match q.items with
    | [] => q
    | frame :: _ => if out = false ∨ maxLen = 0 ∨ maxLen < frame.length then q else q.rest
  | .sendRaw _ => q

def FrameQueue.after (q : FrameQueue) (calls : List NetCall) : FrameQueue := calls.foldl serve q

structure Holds (s : NetState) (q : FrameQueue) : Prop where
  backend : s.backend = .fake
  inv : RxInv s.rx
  queued : s.rx.queued = q.items

variable {q : FrameQueue}

theorem Holds.length (h : Holds s q) : s.rx.returned.length = q.items.length := by
  rw [← h.queued, Side.queued, List.length_map]

theorem Holds.empty_iff (h : Holds s q) : s.rx.usedConsume = s.rx.used.idx ↔ q.items = [] := by
  rw [← List.length_eq_zero_iff, ← h.length, List.length_eq_zero_iff, Side.returned,
    window_eq_nil h.inv.consumeLt h.inv.usedLt]

theorem Holds.inject_cases (h : Holds s q) (d : Option Frame) :
    validData d = true ∧ q.items.length < virtioNetQueueSize ∧
      s.netFakeInjectRx d = (true, { s with rx := s.rx.inject (d.getD []) }) ∨
    ¬(validData d = true ∧ q.items.length < virtioNetQueueSize) ∧
      s.netFakeInjectRx d = (false, s) := by
  rw [← h.length]
  by_cases hv : validData d = true
  · by_cases hroom : s.rx.returned.length < virtioNetQueueSize
    · exact Or.inl ⟨hv, hroom, netFakeInjectRx_of_room h.backend h.inv hv hroom⟩
    · exact Or.inr ⟨fun hr => hroom hr.2, netFakeInjectRx_full h.inv _ hroom⟩
  · exact Or.inr ⟨fun hr => hv hr.1, netFakeInjectRx_invalid (Bool.not_eq_true _ ▸ hv)⟩

theorem Holds.inject (h : Holds s q) (d : Option Frame) :
    Holds (s.netFakeInjectRx d).2 (serve q (.injectRx d)) := by
  rw [serve]
  cases h.inject_cases d with
  | inl hc =>
    obtain ⟨hv,hroom,heq⟩ := hc
    rw [heq, if_pos hv]
    refine ⟨h.backend, h.inv.inject (h.length ▸ hroom), ?_⟩
    rw [items_push hroom, ← h.queued]
    exact h.inv.queued_inject (h.length ▸ hroom)
  | inr hc =>
    obtain ⟨hbad,heq⟩ := hc
    rw [heq]
    split
    · rename_i hv
      rw [push_full fun hroom => hbad ⟨hv, hroom⟩]
      exact h
    · exact h

theorem Holds.recv {frame : Frame} {rest : List Frame} (h : Holds s q)
    (hq : q.items = frame :: rest) {maxLen : Nat} (hm : 0 < maxLen) :
    s.netRecvRaw true maxLen = if maxLen < frame.length then ((-1 : Int), [], s)
      else ((frame.length : Int), frame, { s with rx := s.rx.recycle }) := by
  have hne : s.rx.usedConsume ≠ s.rx.used.idx := by
    rw [Ne, h.empty_iff, hq]
    exact List.cons_ne_nil _ _
  have hf : s.rx.frame s.rx.usedElem = frame := by
    have hpop := h.inv.queued_recycle hne
    rw [h.queued, hq] at hpop
    exact (List.cons.inj hpop).1.symm
  have hl : s.rx.usedElem.len = frame.length := by rw [← hf, Side.frame, length_load]
  rw [netRecvRaw_some h.backend h.inv hm hne, hl, hf]

theorem Holds.recycle {frame : Frame} {rest : List Frame} (h : Holds s q)
    (hq : q.items = frame :: rest) : Holds { s with rx := s.rx.recycle } q.rest := by
  have hne : s.rx.usedConsume ≠ s.rx.used.idx := by
    rw [Ne, h.empty_iff, hq]
    exact List.cons_ne_nil _ _
  refine ⟨h.backend, h.inv.recycle hne, ?_⟩
  have hpop := h.inv.queued_recycle hne
  rw [h.queued, hq] at hpop
  rw [items_rest hq]
  exact (List.cons.inj hpop).2.symm

theorem netRecvRaw_refused {out : Bool} {maxLen : Nat} (h : out = false ∨ maxLen = 0) :
    s.netRecvRaw out maxLen = (-1, [], s) := if_pos h

theorem Holds.call (h : Holds s q) (c : NetCall) : Holds (s.call c) (serve q c) := by
  cases c with
  | injectRx d => exact h.inject d
  | sendRaw d =>
    obtain ⟨hrx,hb⟩ := netSendRaw_rx s d
    rw [NetState.call, serve]
    exact ⟨hb.trans h.backend, hrx ▸ h.inv, hrx ▸ h.queued⟩
  | recvRaw out maxLen =>
    rw [NetState.call, serve]
    by_cases hbad : out = false ∨ maxLen = 0
    · rw [netRecvRaw_refused hbad]
      split
      · exact h
      · rw [if_pos (by tauto)]
        exact h
    obtain ⟨hout,hm⟩ := not_or.mp hbad
    rw [Bool.not_eq_false] at hout
    subst hout
    cases hq : q.items with
    | nil =>
      rw [netRecvRaw_empty h.backend (Nat.pos_of_ne_zero hm) (h.empty_iff.mpr hq)]
      exact h
    | cons frame rest =>
      rw [h.recv hq (Nat.pos_of_ne_zero hm)]
      dsimp only
      by_cases hs : maxLen < frame.length
      · rw [if_pos hs, if_pos (Or.inr (Or.inr hs))]
        exact h
      · rw [if_neg hs, if_neg (by tauto)]
        exact h.recycle hq

theorem Holds.after (h : Holds s q) (calls : List NetCall) :
    Holds (s.after calls) (q.after calls) := by
  induction calls generalizing s q with
  | nil => exact h
  | cons c calls ih => exact ih (h.call c)

/-- The received side is a queue of at most 8 frames. -/
structure FakeRx (s : NetState) (q : FrameQueue) : Prop where
  queued : s.rx.queued = q.items
  ready : s.rx.count = q.items.length
  occupied : s.rx.occupiedCount = q.items.length
  ahead : ahead indexSpace s.rx.usedConsume s.rx.used.idx = q.items.length
  inject : ∀ d, (s.netFakeInjectRx d).1 = true ↔
    validData d = true ∧ q.items.length < virtioNetQueueSize
  rejected : ∀ d, (s.netFakeInjectRx d).1 = false → (s.netFakeInjectRx d).2 = s
  /-- A frame goes to the slot at the head of the avail ring and to no other. -/
  slot : ∀ d, (s.netFakeInjectRx d).1 = true → ∃ slot, s.rx.posted.head? = some slot ∧
    load ((s.netFakeInjectRx d).2.rx.slots slot).data 0 (d.getD []).length = d.getD [] ∧
    s.rx.occupied slot = false ∧ (s.netFakeInjectRx d).2.rx.occupied slot = true ∧
    ∀ k, k ≠ slot → (s.netFakeInjectRx d).2.rx.slots k = s.rx.slots k
  /-- The null pointer and a buffer of no bytes are refused before the queue is looked at. -/
  refused : ∀ out maxLen, out = false ∨ maxLen = 0 → s.netRecvRaw out maxLen = (-1, [], s)
  empty : ∀ maxLen, 0 < maxLen → q.items = [] → s.netRecvRaw true maxLen = (0, [], s)
  oldest : ∀ maxLen frame rest, 0 < maxLen → q.items = frame :: rest → frame.length ≤ maxLen →
    (s.netRecvRaw true maxLen).1 = frame.length ∧ (s.netRecvRaw true maxLen).2.1 = frame
  small : ∀ maxLen frame rest, q.items = frame :: rest → maxLen < frame.length →
    s.netRecvRaw true maxLen = (-1, [], s)
  send : ∀ d, (s.netSendRaw d).2.rx = s.rx

theorem Holds.fakeRx (h : Holds s q) : FakeRx s q where
  queued := h.queued
  ready := by rw [h.inv.count, h.length]
  occupied := by rw [h.inv.occupiedCount, h.length]
  ahead := by rw [← length_returned, h.length]
  inject d := by
    cases h.inject_cases d with
    | inl hc => exact ⟨fun _ => ⟨hc.1, hc.2.1⟩, fun _ => by rw [hc.2.2]⟩
    | inr hc =>
      rw [hc.2]
      exact ⟨fun hr => absurd hr Bool.false_ne_true, fun hr => absurd hr hc.1⟩
  rejected d hr := by
    cases h.inject_cases d with
    | inl hc =>
      rw [hc.2.2] at hr
      cases hr
    | inr hc => rw [hc.2]
  slot d hr := by
    cases h.inject_cases d with
    | inl hc =>
      obtain ⟨-,hroom,heq⟩ := hc
      rw [heq]
      have hfree := h.inv.free (h.length ▸ hroom)
      refine ⟨_, h.inv.posted_head (h.length ▸ hroom), ?_, hfree, ?_,
        fun k hk => Function.update_of_ne hk _ _⟩
      · simp only [Side.inject, Side.complete, Side.fill, Function.update_self, load_store]
      · simp only [Side.occupied, Side.inject, Side.complete, Side.fill, Function.update_self]
    | inr hc =>
      rw [hc.2] at hr
      cases hr
  refused _ _ hbad := netRecvRaw_refused hbad
  empty maxLen hm hq := netRecvRaw_empty h.backend hm (h.empty_iff.mpr hq)
  oldest maxLen frame rest hm hq hle := by
    rw [h.recv hq hm, if_neg (Nat.not_lt.mpr hle)]
    exact ⟨rfl, rfl⟩
  small maxLen frame rest hq hlt := by
    by_cases hm : maxLen = 0
    · exact netRecvRaw_refused (Or.inr hm)
    · rw [h.recv hq (Nat.pos_of_ne_zero hm), if_pos hlt]
  send d := (netSendRaw_rx s d).1

/-- After `net_init_fake`, and any calls, what is received is what a queue of 8 frames
serves after the same calls. -/
theorem fake_rx_fifo (s : NetState) (calls : List NetCall) :
    FakeRx ((netInitFake s).after calls) (FrameQueue.after Fifo.empty calls) := by
  have hinit : Holds (netInitFake s) Fifo.empty := by
    refine ⟨rfl, rxInv_netInitFake s, ?_⟩
    rw [Side.queued, returned_netInitFake]
    rfl
  exact (hinit.after calls).fakeRx

def freshNet : NetState :=
  let side : Side := ⟨⟨0, 0, fun _ => 0⟩, ⟨0, 0, fun _ => ⟨0, 0⟩⟩, fun _ => ⟨fun _ => 0, 0, false⟩,
    0, 0, 0⟩
  ⟨.none, side, side, fun _ => 0, 0, false⟩

/-- A buffer of no bytes is refused even when there is nothing to receive. -/
theorem empty_refused : ¬∀ (s : NetState) (calls : List NetCall) (maxLen : Nat),
    ((netInitFake s).after calls).rx.queued = [] →
      (((netInitFake s).after calls).netRecvRaw true maxLen).1 = 0 := by
  intro hall
  exact absurd (hall freshNet [] 0 (by decide)) (by decide)

example : let s := (netInitFake freshNet).after [.injectRx (some [1, 2]), .sendRaw (some [9])]
    (s.netRecvRaw true 2048).1 = 2 ∧ (s.netRecvRaw true 2048).2.1 = [1, 2] ∧
      s.netCopyLastTxForTest true 2048 = some [9] := by
  decide

end NetKernel.FakeBackend
