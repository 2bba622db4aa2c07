import NetKernel.Net.FakeBackend

/-! The transmit side of the fake backend: each accepted frame is completed and
reclaimed before `net_send_raw` returns, so the ring never fills. -/
namespace NetKernel.FakeTx
open FlatMemory IndexRing Virtio FakeBackend
open TxRing (Frame validData)

/-- Nothing is pending: every slot is free and every completion consumed. -/
structure Idle (t : Side) : Prop where
  consumed : t.usedConsume = t.used.idx
  pending : t.count = 0
  free : ∀ slot < virtioNetQueueSize, t.occupied slot = false
  probe : t.nextProbe < virtioNetQueueSize

variable {t : Side} {data : Frame}

theorem reclaim_idle (h : t.usedConsume = t.used.idx) (fuel : Nat) :
    t.reclaimTxLocked fuel = t := by
  cases fuel with
  | zero => rfl
  | succ n => rw [Side.reclaimTxLocked, if_pos h]

theorem reclaim_one (hne : t.usedConsume ≠ t.used.idx)
    (hone : bump indexSpace t.usedConsume = t.used.idx)
    (hslot : t.usedElem.id % indexSpace < virtioNetQueueSize)
    (hocc : (t.slots (t.usedElem.id % indexSpace)).occupied = true) (fuel : Nat) :
    t.reclaimTxLocked (fuel+1) = (t.release (t.usedElem.id % indexSpace)).skip := by
  rw [Side.reclaimTxLocked, if_neg hne, Side.reclaimOne, if_pos ⟨hslot, hocc⟩, reclaim_idle hone]

theorem Idle.findFreeSlotLocked (h : Idle t) : t.findFreeSlotLocked =
    some (t.nextProbe, { t with nextProbe := nextIndex t.nextProbe }) := by
  have hcell : (t.nextProbe+0) % virtioNetQueueSize = t.nextProbe := Nat.mod_eq_of_lt h.probe
  have hfree := h.free _ h.probe
  rw [Side.findFreeSlotLocked, if_neg (by rw [h.pending]; decide), List.range_succ_eq_map,
    List.map_cons, hcell]
  dsimp only
  rw [List.find?_cons_of_pos, Option.map_some]
  rw [Side.occupied] at hfree
  rw [hfree, Bool.not_false]

/-- The side between the publication of a frame and its reclaim. -/
def published (t : Side) (data : Frame) : Side :=
  let slot := t.nextProbe
  let tx := ({ t with nextProbe := nextIndex slot }.fill slot data).post slot
  { tx with count := bump indexSpace tx.count }.complete slot data.length

theorem published_used : (published t data).used.idx = bump indexSpace t.used.idx := rfl

theorem published_consume : (published t data).usedConsume = t.usedConsume := rfl

theorem Idle.send (h : Idle t) (hi : t.used.idx < indexSpace) :
    Idle ((published t data).reclaimTxLocked indexSpace) ∧
      ((published t data).reclaimTxLocked indexSpace).used.idx < indexSpace := by
  have hprobe := h.probe
  have hbump : bump indexSpace t.used.idx ≠ t.used.idx := by
    by_cases hlast : t.used.idx+1 = indexSpace
    · rw [bump_last hlast]
      simp only [indexSpace] at hlast
      omega
    · rw [bump_of_lt (by omega)]
      omega
  have hid : (published t data).usedElem.id % indexSpace = t.nextProbe := by
    have helem : (published t data).usedElem = ⟨t.nextProbe, data.length⟩ := by
      change Function.update t.used.ring (t.used.idx % virtioNetQueueSize) _
        (t.usedConsume % virtioNetQueueSize) = _
      rw [h.consumed, Function.update_self]
    rw [helem]
    exact Nat.mod_eq_of_lt (Nat.lt_trans hprobe (by decide))
  have hocc : ((published t data).slots t.nextProbe).occupied = true := by
    simp only [published, Side.complete, Side.post, Side.fill, Function.update_self]
  have hrun : (published t data).reclaimTxLocked indexSpace =
      ((published t data).release t.nextProbe).skip := by
    have hone := reclaim_one (t := published t data)
      (by rw [published_used, published_consume, h.consumed]; exact hbump.symm)
      (by rw [published_used, published_consume, h.consumed])
      (by rw [hid]; exact hprobe) (by rw [hid]; exact hocc) 65535
    rw [hid] at hone
    exact hone
  rw [hrun]
  refine ⟨⟨?_, ?_, fun slot hs => ?_, Nat.mod_lt _ (by decide)⟩, bump_lt (by decide) _⟩
  · change bump indexSpace t.usedConsume = bump indexSpace t.used.idx
    rw [h.consumed]
  · change (if 0 < bump indexSpace t.count then bump indexSpace t.count-1 else _) = 0
    rw [h.pending]
    rfl
  · by_cases hk : slot = t.nextProbe
    · subst hk
      simp only [Side.occupied, Side.skip, Side.release, Function.update_self, resetSlot]
    · have := h.free slot hs
      simp only [Side.occupied, Side.skip, Side.release, published, Side.complete, Side.post,
        Side.fill, Function.update_of_ne hk] at this ⊢
      exact this

/-! A run of calls, beside the last frame accepted. -/

/-- The frame of the last accepted `net_send_raw`. -/
def lastAccepted (last : Option Frame) : NetCall → Option Frame
  | .sendRaw data => if validData data then data else last
  | _ => last

/-- Nothing is pending and the copy for tests is the last frame. -/
structure Sends (s : NetState) (last : Option Frame) : Prop where
  backend : s.backend = .fake
  idle : Idle s.tx
  used : s.tx.used.idx < indexSpace
  valid : s.lastFakeTxValid = last.isSome
  copied : ∀ data, last = some data →
    s.lastFakeTxLen = data.length ∧ load s.lastFakeTx 0 data.length = data

variable {s : NetState} {last : Option Frame}

theorem validData_iff (d : Option Frame) : validData d = true ↔
    ∃ data, d = some data ∧ 1 ≤ data.length ∧ data.length ≤ virtioNetMaxFrameSize := by
  cases d with
  | none => simp [validData]
  | some data =>
    simp only [validData, Bool.and_eq_true, bne_iff_ne, decide_eq_true_eq, Option.some.injEq,
      exists_eq_left']
    omega

theorem Sends.accepted (h : Sends s last) {d : Option Frame} (hv : validData d = true) :
    s.netSendRaw d = (true, { s with
      lastFakeTx := store s.lastFakeTx 0 (d.getD [])
      lastFakeTxLen := (d.getD []).length % indexSpace
      lastFakeTxValid := true
      tx := (published s.tx (d.getD [])).reclaimTxLocked indexSpace }) := by
  have hb : ¬ s.backend ≠ .fake := not_not.mpr h.backend
  rw [NetState.netSendRaw, hv, if_neg (by decide), if_neg hb]
  simp only [reclaim_idle h.idle.consumed, h.idle.findFreeSlotLocked]
  rfl

theorem Sends.refused {d : Option Frame} (hv : validData d = false) :
    s.netSendRaw d = (false, s) := if_pos hv

theorem Sends.send (h : Sends s last) (d : Option Frame) :
    Sends (s.netSendRaw d).2 (lastAccepted last (.sendRaw d)) := by
  rw [lastAccepted]
  by_cases hv : validData d = true
  · obtain ⟨data,rfl,-,hmax⟩ := (validData_iff d).mp hv
    obtain ⟨hidle,hused⟩ := @Idle.send _ data h.idle h.used
    rw [h.accepted hv, if_pos hv, Option.getD_some]
    refine ⟨h.backend, hidle, hused, rfl, fun data' heq => ?_⟩
    cases heq
    refine ⟨Nat.mod_eq_of_lt (Nat.lt_of_le_of_lt hmax (by decide)), ?_⟩
    change load (store s.lastFakeTx 0 data) 0 data.length = data
    exact load_store
  · rw [Bool.not_eq_true] at hv
    rw [Sends.refused hv, if_neg (by rw [hv]; decide)]
    exact h

theorem netFakeInjectRx_tx (s : NetState) (d : Option Frame) :
    (s.netFakeInjectRx d).2 = { s with rx := (s.netFakeInjectRx d).2.rx } := by
  rw [NetState.netFakeInjectRx]
  split
  · rfl
  split
  · rfl
  · cases s.rx.findFreeSlotLocked <;> rfl

theorem netRecvRaw_tx (s : NetState) (out : Bool) (maxLen : Nat) :
    (s.netRecvRaw out maxLen).2.2 = { s with rx := (s.netRecvRaw out maxLen).2.2.rx } := by
  rw [NetState.netRecvRaw]
  split
  · rfl
  split
  · rfl
  split
  · rfl
  dsimp only
  split
  · rfl
  split <;> rfl

theorem Sends.call (h : Sends s last) (c : NetCall) : Sends (s.call c) (lastAccepted last c) := by
  cases c with
  | sendRaw d => exact h.send d
  | injectRx d =>
    rw [NetState.call, netFakeInjectRx_tx]
    exact ⟨h.backend, h.idle, h.used, h.valid, h.copied⟩
  | recvRaw out maxLen =>
    rw [NetState.call, netRecvRaw_tx]
    exact ⟨h.backend, h.idle, h.used, h.valid, h.copied⟩

theorem Sends.after (h : Sends s last) (calls : List NetCall) :
    Sends (s.after calls) (calls.foldl lastAccepted last) := by
  induction calls generalizing s last with
  | nil => exact h
  | cons c calls ih => exact ih (h.call c)

theorem sends_netInitFake (s : NetState) : Sends (netInitFake s) none where
  backend := rfl
  idle :=
    { consumed := rfl
      pending := rfl
      free := fun slot hs => by
        have hslot : (netInitFake s).tx.slots slot = resetSlot (s.tx.slots slot) := if_pos hs
        rw [Side.occupied, hslot]
        rfl
      probe := Nat.succ_pos 7 }
  used := Nat.succ_pos 65535
  valid := rfl
  copied _ he := by cases he

structure NeverFills (s : NetState) (last : Option Frame) : Prop where
  accepts : ∀ d, (s.netSendRaw d).1 = true ↔
    ∃ data, d = some data ∧ 1 ≤ data.length ∧ data.length ≤ virtioNetMaxFrameSize
  pending : s.tx.count = 0
  free : ∀ slot < virtioNetQueueSize, s.tx.occupied slot = false
  consumed : s.tx.usedConsume = s.tx.used.idx
  copy : ∀ data len, last = some data → data.length ≤ len →
    s.netCopyLastTxForTest true len = some data

theorem Sends.neverFills (h : Sends s last) : NeverFills s last where
  accepts d := by
    rw [← validData_iff]
    by_cases hv : validData d = true
    · rw [h.accepted hv, hv]
    · rw [Bool.not_eq_true] at hv
      rw [Sends.refused hv, hv]
  pending := h.idle.pending
  free := h.idle.free
  consumed := h.idle.consumed
  copy data len he hl := by
    obtain ⟨hlen,hcopy⟩ := h.copied data he
    have hvalid := h.valid
    rw [he, Option.isSome_some] at hvalid
    rw [NetState.netCopyLastTxForTest, hlen, hvalid, if_neg (by
      simp only [Bool.true_eq_false, false_or]
      omega), hcopy]

/-- After `net_init_fake` and any calls, every frame of a legal length is accepted,
nothing stays pending, and the last accepted frame can be read back. -/
theorem fake_tx_never_fills (s : NetState) (calls : List NetCall) :
    NeverFills ((netInitFake s).after calls) (calls.foldl lastAccepted none) :=
  ((sends_netInitFake s).after calls).neverFills

end NetKernel.FakeTx
