import NetKernel.Net.RxRing

/-! Receive completions of any reported length: what `net_recv_raw` does with the entry
it finds, and where the buffers are after any number of them. -/
namespace NetKernel.RxCompletion
open FlatMemory IndexRing Slots Virtio Runs RxRing

/-- `virtio_recv_raw_locked`: the result, the bytes copied and the state after. -/
def virtioRecvRawLocked (h : Half) (maxLen : Nat) : Int × Frame × Half :=
  if h.q.usedConsume = h.q.used.idx then (0, [], h)
  else
    let slot := h.q.usedElem.id % indexSpace
    let totalLen := h.q.usedElem.len
    if virtioNetQueueSize ≤ slot ∨ totalLen < sizeofVirtioNetHdr then
      (0, [], { h with q := h.q.skip })
    else
      let frameLen := totalLen-sizeofVirtioNetHdr
      if maxLen < frameLen then (-1, [], h)
      else
        let out := load h.mem ((h.buffers slot).pa+sizeofVirtioNetHdr) frameLen
        let h := h.describe slot kVirtioBufferSize virtqDescFWrite
        (frameLen, out, { h with q := (h.q.skip.offer slot).publish })

/-- `net_recv_raw` on the ready Virtio backend. -/
def netRecvRaw (h : Half) (out : Bool) (maxLen : Nat) : Int × Frame × Half :=
  if out = false ∨ maxLen = 0 then (-1, [], h) else virtioRecvRawLocked h maxLen

/-- A whole call, nothing else happening meanwhile. -/
def recv (s : RxState) (out : Bool) (maxLen : Nat) : RxState :=
  let r := netRecvRaw s.half out maxLen
  { s with
    half := r.2.2
    received := if 0 < r.1 then s.received ++ [r.2.1] else s.received }

variable {s : RxState} {h : Half} {maxLen : Nat}

theorem recv_steps (hpc : s.pc = .idle) (out : Bool) (maxLen : Nat) :
    ∃ n, RxState.advance^[n] (s.netRecvRaw out maxLen) = recv s out maxLen := by
  by_cases hbad : out = false ∨ maxLen = 0
  · refine ⟨1, ?_⟩
    simp [RxState.netRecvRaw, recv, netRecvRaw, hbad, RxState.advance, ← hpc]
  by_cases hempty : s.half.q.usedConsume = s.half.q.used.idx
  · refine ⟨2, ?_⟩
    simp [RxState.netRecvRaw, recv, netRecvRaw, hbad, RxState.advance, virtioRecvRawLocked, hempty,
      VirtioQueue.completed, ← hpc]
  by_cases hshort : virtioNetQueueSize ≤ s.half.q.usedElem.id % indexSpace ∨
      s.half.q.usedElem.len < sizeofVirtioNetHdr
  · refine ⟨3, ?_⟩
    simp [RxState.netRecvRaw, recv, netRecvRaw, hbad, RxState.advance, virtioRecvRawLocked, hempty,
      VirtioQueue.completed, hshort, ← hpc]
  by_cases hlong : maxLen < s.half.q.usedElem.len-sizeofVirtioNetHdr
  · refine ⟨3, ?_⟩
    simp [RxState.netRecvRaw, recv, netRecvRaw, hbad, RxState.advance, virtioRecvRawLocked, hempty,
      VirtioQueue.completed, hshort, hlong, ← hpc]
  · refine ⟨7, ?_⟩
    simp [RxState.netRecvRaw, recv, netRecvRaw, hbad, RxState.advance, virtioRecvRawLocked, hempty,
      VirtioQueue.completed, hshort, hlong, Half.describe, VirtioQueue.skip, VirtioQueue.offer,
      VirtioQueue.publish, ← hpc]

/-! One call. -/

/-- The entry at the head of the used ring is consumed and its buffer posted again. -/
structure Reposts (h h' : Half) : Prop where
  consumed : h'.q.usedConsume = bump indexSpace h.q.usedConsume
  posted : h'.q.avail.idx = bump indexSpace h.q.avail.idx
  cell : h'.q.avail.ring (h.q.avail.idx % virtioNetQueueSize) = h.q.usedElem.id

theorem netRecvRaw_some (hm : 0 < maxLen) (hne : h.q.usedConsume ≠ h.q.used.idx)
    (hid : h.q.usedElem.id < virtioNetQueueSize) :
    netRecvRaw h true maxLen =
      if h.q.usedElem.len < sizeofVirtioNetHdr then ((0 : Int), [], { h with q := h.q.skip })
      else if maxLen < h.q.usedElem.len-sizeofVirtioNetHdr then ((-1 : Int), [], h)
      else (((h.q.usedElem.len-sizeofVirtioNetHdr : Nat) : Int), frameOf h h.q.usedElem,
        { h.describe h.q.usedElem.id kVirtioBufferSize virtqDescFWrite with
          q := ((h.describe h.q.usedElem.id kVirtioBufferSize virtqDescFWrite).q.skip.offer
            h.q.usedElem.id).publish }) := by
  have hmod : h.q.usedElem.id % indexSpace = h.q.usedElem.id :=
    Nat.mod_eq_of_lt (Nat.lt_trans hid (by decide))
  have hcall : ¬(true = false ∨ maxLen = 0) := by
    simp only [Bool.true_eq_false, false_or]
    omega
  rw [netRecvRaw, if_neg hcall, virtioRecvRawLocked, if_neg hne]
  dsimp only
  rw [hmod]
  simp only [Nat.not_le.mpr hid, false_or, frameOf]

theorem bump_ne {i : Nat} : bump indexSpace i ≠ i := by
  simp only [bump, indexSpace]
  omega

/-- With a buffer of the largest frame, the call serves the entry exactly when the reported
length is that of a header and at most a frame. -/
theorem reposts_iff (hne : h.q.usedConsume ≠ h.q.used.idx)
    (hid : h.q.usedElem.id < virtioNetQueueSize) :
    Reposts h (netRecvRaw h true virtioNetMaxFrameSize).2.2 ↔
      sizeofVirtioNetHdr ≤ h.q.usedElem.len ∧ h.q.usedElem.len ≤ kVirtioBufferSize := by
  rw [netRecvRaw_some (by decide) hne hid]
  simp only [sizeofVirtioNetHdr, kVirtioBufferSize, virtioNetMaxFrameSize]
  by_cases hshort : h.q.usedElem.len < 12
  · rw [if_pos hshort]
    refine ⟨fun hr => ?_, fun hr => absurd hr.1 (Nat.not_le.mpr hshort)⟩
    exact absurd hr.posted.symm bump_ne
  rw [if_neg hshort]
  by_cases hlong : 2048 < h.q.usedElem.len-12
  · rw [if_pos hlong]
    exact ⟨fun hr => absurd hr.consumed.symm bump_ne, fun hr => by omega⟩
  rw [if_neg hlong]
  refine ⟨fun _ => by omega, fun _ => ⟨rfl, rfl, Function.update_self ..⟩⟩

/-! Runs: whole calls, and a device that reports any length. -/

inductive RxAct where
  | recv (out : Bool) (maxLen : Nat)
  | take
  | write (e : Held) (off : Nat) (xs : List UInt8)
  | complete (e : Held) (len : Nat)

/-- The device stores within the descriptors of what it holds and completes it in any
order, whatever it reports. -/
def rxMachine : Machine RxState RxAct where
  Init := rxSystem.Init
  step s
    | .recv out maxLen => some (recv s out maxLen)
    | .take => if s.dev.lastAvail ≠ s.half.q.avail.idx then some s.take else none
    | .write e off xs =>
      if e ∈ s.dev.held ∧ off+xs.length ≤ (s.half.q.desc e.id).len then some (s.write e off xs)
      else none
    | .complete e len => if e ∈ s.dev.held then some (s.complete e len) else none

/-- The reported length is that of a header and at most a frame. -/
def GoodLen (_ : RxState) : RxAct → Prop
  | .complete _ len => sizeofVirtioNetHdr ≤ len ∧ len ≤ kVirtioBufferSize
  | _ => True

def nonempty (l : List Frame) : List Frame := l.filter fun f => f ≠ []

theorem nonempty_cons (f : Frame) (l : List Frame) :
    nonempty (f :: l) = (if 0 < (f.length : Int) then [f] else []) ++ nonempty l := by
  cases f with
  | nil => rfl
  | cons b f =>
    have hpos : 0 < (b :: f).length := Nat.succ_pos _
    rw [if_pos (Int.natCast_pos.mpr hpos)]
    rfl

structure Sound (s : RxState) : Prop where
  apart : Apart s.half.buffers
  availLt : s.half.q.avail.idx < indexSpace
  usedLt : s.half.q.used.idx < indexSpace
  consumeLt : s.half.q.usedConsume < indexSpace
  lastLt : s.dev.lastAvail < indexSpace
  described : Described s.half
  slots : Circulation virtioNetQueueSize (fun _ => true) (s.posted ++ (s.heldIds ++ s.completed))
  lens : ∀ e ∈ s.half.q.returned, sizeofVirtioNetHdr ≤ e.len ∧ e.len ≤ kVirtioBufferSize
  frames : nonempty s.completions =
    s.received ++ nonempty (s.half.q.returned.map (frameOf s.half))

theorem Sound.length_eq (h : Sound s) :
    (s.posted ++ (s.heldIds ++ s.completed)).length = virtioNetQueueSize := by
  rw [← h.slots.count]
  rfl

theorem Sound.lt_of_held (h : Sound s) {e : Held} (he : e ∈ s.dev.held) :
    e.id < virtioNetQueueSize :=
  ((h.slots.mem _).mp (List.mem_append_right _
    (List.mem_append_left _ (List.mem_map_of_mem he)))).1

theorem Sound.returned_ne (h : Sound s) {e : Held} (he : e ∈ s.dev.held)
    {x : VirtioNetUsedElem} (hx : x ∈ s.half.q.returned) :
    x.id < virtioNetQueueSize ∧ x.id ≠ e.id := by
  have hc : x.id ∈ s.completed := List.mem_map_of_mem hx
  refine ⟨((h.slots.mem _).mp (List.mem_append_right _ (List.mem_append_right _ hc))).1, ?_⟩
  obtain ⟨-,hn,-⟩ := List.nodup_append.mp h.slots.nodup
  intro heq
  exact (List.nodup_append.mp hn).2.2 _ (List.mem_map_of_mem he) _ hc heq.symm

/-! The steps of the device. -/

theorem Sound.take (h : Sound s) (hne : s.dev.lastAvail ≠ s.half.q.avail.idx) : Sound s.take := by
  have hpost : s.posted = s.half.q.avail.ring (s.dev.lastAvail % virtioNetQueueSize) ::
      s.take.posted := posted_pop h.lastLt h.availLt hne
  have hheld : s.take.heldIds = s.heldIds ++
      [s.half.q.avail.ring (s.dev.lastAvail % virtioNetQueueSize)] := List.map_append
  refine ⟨h.apart, h.availLt, h.usedLt, h.consumeLt, bump_lt (by decide) _, h.described, ?_,
    h.lens, h.frames⟩
  refine h.slots.perm ?_
  rw [hpost, hheld]
  exact perm_to_second _ s.take.posted s.heldIds s.completed

theorem Sound.write {e : Held} {off : Nat} {xs : List UInt8} (h : Sound s)
    (he : e ∈ s.dev.held) (hfit : off+xs.length ≤ (s.half.q.desc e.id).len) :
    Sound (s.write e off xs) := by
  refine ⟨h.apart, h.availLt, h.usedLt, h.consumeLt, h.lastLt, h.described, h.slots, h.lens, ?_⟩
  refine h.frames.trans (congrArg (fun l => s.received ++ nonempty l) ?_)
  refine List.map_congr_left fun x hx => ?_
  obtain ⟨hx8,hne⟩ := h.returned_ne he hx
  obtain ⟨hlo,hhi⟩ := h.lens x hx
  exact (frameOf_store h.apart h.described (h.lt_of_held he) hx8 hne hhi hlo hfit).symm

theorem Sound.complete {e : Held} {len : Nat} (h : Sound s) (he : e ∈ s.dev.held)
    (hlo : sizeofVirtioNetHdr ≤ len) (hhi : len ≤ kVirtioBufferSize) :
    Sound (s.complete e len) := by
  have hroom : s.half.q.returned.length < virtioNetQueueSize := by
    have hl := h.length_eq
    have hpos : 0 < s.heldIds.length := List.length_pos_of_mem (List.mem_map_of_mem he)
    simp only [List.length_append, RxState.completed, List.length_map] at hl
    omega
  have hret := returned_complete h.consumeLt h.usedLt hroom e.id len
  have hcomp : (s.complete e len).completed = s.completed ++ [e.id] :=
    (congrArg (List.map VirtioNetUsedElem.id) hret).trans List.map_append
  have hheld : s.heldIds.Perm (e.id :: (s.complete e len).heldIds) :=
    (List.perm_cons_erase he).map Held.id
  refine ⟨h.apart, h.availLt, bump_lt (by decide) _, h.consumeLt, h.lastLt, h.described, ?_,
    fun x hx => ?_, ?_⟩
  · refine h.slots.perm ?_
    rw [hcomp]
    exact perm_to_last s.posted s.completed hheld
  · rw [show (s.complete e len).half.q.returned = _ from hret] at hx
    cases List.mem_append.mp hx with
    | inl hold => exact h.lens x hold
    | inr hnew =>
      rw [List.mem_singleton.mp hnew]
      exact ⟨hlo, hhi⟩
  · have hf := h.frames
    rw [show (s.complete e len).half.q.returned = _ from hret, List.map_append, List.map_singleton]
    simp only [RxState.complete, h.described _ (h.lt_of_held he), nonempty, List.filter_append]
      at hf ⊢
    rw [hf, List.append_assoc]
    rfl

/-! The calls. -/

theorem netRecvRaw_idle {out : Bool}
    (hidle : out = false ∨ maxLen = 0 ∨ h.q.usedConsume = h.q.used.idx) :
    (netRecvRaw h out maxLen).2.2 = h ∧ ¬0 < (netRecvRaw h out maxLen).1 := by
  by_cases hbad : out = false ∨ maxLen = 0
  · rw [netRecvRaw, if_pos hbad]
    exact ⟨rfl, Int.not_lt.mpr (by decide : (-1 : Int) ≤ 0)⟩
  · rw [netRecvRaw, if_neg hbad, virtioRecvRawLocked, if_pos (by tauto)]
    exact ⟨rfl, Int.lt_irrefl 0⟩

theorem recv_same {out : Bool} (hhalf : (netRecvRaw s.half out maxLen).2.2 = s.half)
    (hres : ¬0 < (netRecvRaw s.half out maxLen).1) : recv s out maxLen = s := by
  simp only [recv, hhalf, if_neg hres]

theorem Sound.usedElem (h : Sound s) (hne : s.half.q.usedConsume ≠ s.half.q.used.idx) :
    s.half.q.returned = s.half.q.usedElem :: s.half.q.skip.returned ∧
      s.half.q.usedElem.id < virtioNetQueueSize ∧
      sizeofVirtioNetHdr ≤ s.half.q.usedElem.len ∧ s.half.q.usedElem.len ≤ kVirtioBufferSize := by
  have hpop := returned_pop h.consumeLt h.usedLt hne
  have hm : s.half.q.usedElem ∈ s.half.q.returned := hpop ▸ List.mem_cons_self
  have hc : s.half.q.usedElem.id ∈ s.completed := List.mem_map_of_mem hm
  exact ⟨hpop, ((h.slots.mem _).mp (List.mem_append_right _ (List.mem_append_right _ hc))).1,
    h.lens _ hm⟩

def served (h : Half) : Half := { h with q := (h.q.skip.offer h.q.usedElem.id).publish }

theorem Sound.netRecvRaw (h : Sound s) (hm : 0 < maxLen)
    (hne : s.half.q.usedConsume ≠ s.half.q.used.idx) :
    netRecvRaw s.half true maxLen =
      if maxLen < s.half.q.usedElem.len-sizeofVirtioNetHdr then ((-1 : Int), [], s.half)
      else (((s.half.q.usedElem.len-sizeofVirtioNetHdr : Nat) : Int),
        frameOf s.half s.half.q.usedElem, served s.half) := by
  obtain ⟨-,hid,hlo,-⟩ := h.usedElem hne
  rw [netRecvRaw_some hm hne hid, if_neg (Nat.not_lt.mpr hlo), h.described.describe hid, served]

theorem Sound.posted_served (h : Sound s) (hne : s.half.q.usedConsume ≠ s.half.q.used.idx) :
    (served s.half).q.posted s.dev.lastAvail = s.posted ++ [s.half.q.usedElem.id] := by
  obtain ⟨hpop,-⟩ := h.usedElem hne
  have hroom : s.posted.length < virtioNetQueueSize := by
    have hl := h.length_eq
    have hcomp : s.completed = s.half.q.usedElem.id ::
        s.half.q.skip.returned.map VirtioNetUsedElem.id := by
      rw [RxState.completed, hpop, List.map_cons]
    rw [List.length_append, List.length_append, hcomp, List.length_cons] at hl
    omega
  have hoffer : (s.half.q.skip.offer s.half.q.usedElem.id).posted s.dev.lastAvail = s.posted :=
    posted_offer (q := s.half.q.skip) h.lastLt h.availLt hroom _
  have hpush := posted_publish (q := s.half.q.skip.offer s.half.q.usedElem.id) h.lastLt h.availLt
    (hoffer ▸ hroom)
  rw [served, hpush, hoffer]
  exact congrArg (fun k => s.posted ++ [k]) (Function.update_self ..)

theorem Sound.recv (h : Sound s) (out : Bool) (maxLen : Nat) : Sound (recv s out maxLen) := by
  by_cases hidle : out = false ∨ maxLen = 0 ∨ s.half.q.usedConsume = s.half.q.used.idx
  · obtain ⟨hhalf,hres⟩ := netRecvRaw_idle hidle
    rw [recv_same hhalf hres]
    exact h
  obtain ⟨hout,hrest⟩ := not_or.mp hidle
  obtain ⟨hm,hne⟩ := not_or.mp hrest
  rw [Bool.not_eq_false] at hout
  subst hout
  have hcall := h.netRecvRaw (Nat.pos_of_ne_zero hm) hne
  by_cases hlong : maxLen < s.half.q.usedElem.len-sizeofVirtioNetHdr
  · rw [if_pos hlong] at hcall
    rw [recv_same (by rw [hcall]) (by
      rw [hcall]
      exact Int.not_lt.mpr (by decide : (-1 : Int) ≤ 0))]
    exact h
  rw [if_neg hlong] at hcall
  obtain ⟨hpop,-,hlo,hhi⟩ := h.usedElem hne
  rw [RxCompletion.recv, hcall]
  exact {
    apart := h.apart
    availLt := bump_lt (by decide) _
    usedLt := h.usedLt
    consumeLt := bump_lt (by decide) _
    lastLt := h.lastLt
    described := h.described
    slots := by
      have hs := h.slots
      rw [RxState.completed, hpop, List.map_cons] at hs
      refine hs.perm ?_
      change (s.posted ++ (s.heldIds ++ _)).Perm ((served s.half).q.posted s.dev.lastAvail ++
        (s.heldIds ++ s.half.q.skip.returned.map VirtioNetUsedElem.id))
      rw [h.posted_served hne, ← List.append_assoc]
      refine List.perm_middle.trans ?_
      rw [List.append_assoc]
      exact perm_to_first _ _ _
    lens := fun x hx => h.lens x (hpop ▸ List.mem_cons_of_mem _ hx)
    frames := by
      have hf := h.frames
      rw [hpop, List.map_cons] at hf
      have hlen : (frameOf s.half s.half.q.usedElem).length =
          s.half.q.usedElem.len-sizeofVirtioNetHdr := length_load
      rw [nonempty_cons, hlen] at hf
      change nonempty s.completions = (if (0 : Int) < _ then s.received ++ [_] else s.received) ++
        nonempty (s.half.q.skip.returned.map (frameOf s.half))
      rw [hf]
      split
      · rw [List.append_assoc]
      · rw [List.nil_append] }

theorem sound_init {s : RxState} (hi : rxMachine.Init s) : Sound s := by
  obtain ⟨h,ha,rfl⟩ := hi
  have hi := RxInv.init h ha
  have hzero : 0 < indexSpace := by decide
  have hret : (initRxBuffersLocked h).q.returned = [] := window_self hzero
  have hslots := hi.slots
  simp only [RxState.circulating, RxPc.hand, List.nil_append] at hslots
  refine ⟨hi.apart, hi.availLt, hi.usedLt, hi.consumeLt, hi.lastLt, hi.described, hslots,
    fun e he => ?_, ?_⟩
  · rw [hret] at he
    cases he
  · rw [hret]
    rfl

theorem sound_step {s t : RxState} {a : RxAct} (h : Sound s) (hc : GoodLen s a)
    (hs : rxMachine.step s a = some t) : Sound t := by
  cases a with
  | recv out maxLen =>
    cases hs
    exact h.recv out maxLen
  | take =>
    simp only [rxMachine] at hs
    split at hs
    · rename_i hne
      cases hs
      exact h.take hne
    · cases hs
  | write e off xs =>
    simp only [rxMachine] at hs
    split at hs
    · rename_i hok
      cases hs
      exact h.write hok.1 hok.2
    · cases hs
  | complete e len =>
    simp only [rxMachine] at hs
    split at hs
    · rename_i he
      cases hs
      exact h.complete he hc.1 hc.2
    · cases hs

theorem sound_invariant : (rxMachine.under GoodLen).Invariant Sound where
  init _ := sound_init
  step := fun _ _ h ⟨_,hc,hs⟩ => sound_step h hc hs

/-- All the buffers circulate, and what is completed is delivered in its order. -/
structure Circulates (s : RxState) : Prop where
  /-- Each of the 8 buffers is posted, the device's, or completed and not consumed. -/
  partition : (s.posted ++ (s.heldIds ++ s.completed)).Perm (List.range virtioNetQueueSize)
  frames : nonempty s.completions =
    s.received ++ nonempty (s.half.q.returned.map (frameOf s.half))
  reposts : s.half.q.usedConsume ≠ s.half.q.used.idx →
    Reposts s.half (netRecvRaw s.half true virtioNetMaxFrameSize).2.2
  delivers : s.half.q.usedConsume ≠ s.half.q.used.idx →
    (netRecvRaw s.half true virtioNetMaxFrameSize).2.1 = frameOf s.half s.half.q.usedElem ∧
      (netRecvRaw s.half true virtioNetMaxFrameSize).1 =
        (frameOf s.half s.half.q.usedElem).length

theorem Sound.circulates (h : Sound s) : Circulates s where
  partition := h.slots.perm_filter.trans (by rw [List.filter_true])
  frames := h.frames
  reposts hne := by
    obtain ⟨-,hid,hlo,hhi⟩ := h.usedElem hne
    exact (reposts_iff hne hid).mpr ⟨hlo, hhi⟩
  delivers hne := by
    obtain ⟨-,-,-,hhi⟩ := h.usedElem hne
    have hfit : ¬2048 < s.half.q.usedElem.len-12 := by
      simp only [kVirtioBufferSize] at hhi
      omega
    rw [h.netRecvRaw (by decide) hne, if_neg hfit, frameOf, length_load]
    exact ⟨rfl, rfl⟩

/-- A call with a buffer of the largest frame consumes the entry it finds and posts its
buffer again exactly when the reported length is that of a header and at most a frame; while
the device reports such lengths every buffer stays in circulation. -/
theorem completion_reposts (h : Half) (hne : h.q.usedConsume ≠ h.q.used.idx)
    (hid : h.q.usedElem.id < virtioNetQueueSize) :
    (Reposts h (netRecvRaw h true virtioNetMaxFrameSize).2.2 ↔
      sizeofVirtioNetHdr ≤ h.q.usedElem.len ∧ h.q.usedElem.len ≤ kVirtioBufferSize) ∧
    ∀ s, (rxMachine.under GoodLen).Reachable s → Circulates s :=
  ⟨reposts_iff hne hid, fun _ hr => (sound_invariant.reachable hr).circulates⟩

/-- One buffer taken and completed with a length reported as `len`. -/
def reportedRun (len : Nat) : RxState :=
  rxMachine.run ⟨initRxBuffersLocked freshHalf, .idle, .reset, [], []⟩
    [.take, .complete ⟨0, 0⟩ len]

theorem completion_reposts_header : Reposts (reportedRun 12).half
    (netRecvRaw (reportedRun 12).half true virtioNetMaxFrameSize).2.2 ∧
      Circulates (reportedRun 12) := by
  obtain ⟨hcall,hrun⟩ := completion_reposts (reportedRun 12).half (by decide) (by decide)
  refine ⟨hcall.mpr (by decide), hrun _ (Machine.reachable_run
    (.init ⟨freshHalf, freshHalf_apart, rfl⟩) ?_)⟩
  exact ⟨trivial, ⟨by decide, by decide⟩, trivial⟩

/-- A completion reported shorter than the header loses its buffer. -/
theorem short_completion_loses : ¬∀ s : RxState, rxMachine.system.Reachable s →
    s.half.q.usedConsume ≠ s.half.q.used.idx → s.half.q.usedElem.id < virtioNetQueueSize →
      Reposts s.half (netRecvRaw s.half true virtioNetMaxFrameSize).2.2 := by
  intro hall
  have hr : rxMachine.system.Reachable (reportedRun 11) :=
    Machine.reachable_run (.init ⟨freshHalf, freshHalf_apart, rfl⟩) Machine.allowed_true
  have hposted := (hall _ hr (by decide) (by decide)).posted
  exact absurd hposted (by decide)

end NetKernel.RxCompletion
