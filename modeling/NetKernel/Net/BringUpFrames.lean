import NetKernel.Memory.SharedMappings
import NetKernel.Net.BringUp
import NetKernel.Net.RxRing
import NetKernel.Net.TxRing

/-! The frames `virtio_net_init_pci` takes from the allocator: those of the page tables that
`map_mmio` makes, then its own, how many and where they go, and that a device brought up starts
with rings the live send and receive paths can start from. -/
namespace NetKernel.BringUpFrames
open Dialogues Virtio Pcie VirtioPci BringUp
open Fork (State)
open Frames (Ram limineMap)
open Heaps (wrap)
open SharedMappings (Boot)

/-! A supply of frames in a fixed order. -/

/-- The frames left, in the order they are handed out, and those taken, oldest first. -/
structure Stock where
  left : List Nat
  taken : List Nat

def Stock.take (t : Stock) : Stock := ⟨t.left.drop 1, t.taken ++ t.left.take 1⟩

/-- Once the regions are mapped: `alloc` is answered with the next frame, the device answers as
it likes. -/
def stock : Contract Request Answer Stock where
  asks _ q := ∀ pa length, q ≠ .mapMmio pa length
  answers
    | t, .alloc, frame => frame = t.left.head?
    | _, _, _ => True
  next
    | t, .alloc, _ => t.take
    | t, _, _ => t

variable {t : Stock} {β γ : Type} {last : Option β → Stock → Prop}

/-- Parts that take no frame. -/
abbrev Calm (p : Driver γ) : Prop :=
  p.Only fun q => q ≠ .alloc ∧ ∀ pa length, q ≠ .mapMmio pa length

theorem keeps_calm {p : Driver γ} {f : γ → Driver β} (h : Calm p)
    (hf : ∀ b, (f b).Keeps stock last t) : (p >>= f).Keeps stock last t := by
  refine h.keeps (fun _ hq => hq.2) (fun q a hq => ?_) hf
  cases q with
  | alloc => exact absurd rfl hq.1
  | _ => rfl

theorem calm_load (reg : CommonReg) : Calm (load reg) := only_request.mpr (by simp)

theorem calm_store (reg : CommonReg) (value : UInt64) : Calm (store reg value) :=
  only_request.mpr (by simp)

theorem calm_addDeviceStatus (status : UInt8) : Calm (addDeviceStatus status) :=
  (calm_load _).bind fun _ => calm_store ..

theorem calm_waitForReset (polls : Nat) : Calm (waitForReset polls) := by
  induction polls with
  | zero => trivial
  | succ polls ih =>
    refine (calm_load _).bind fun status => ?_
    split
    · trivial
    · exact ih

theorem calm_negotiateFeatures : Calm negotiateFeatures := by
  have hread : Calm readDeviceFeatures := (calm_store ..).bind fun _ => (calm_load _).bind fun _ =>
    (calm_store ..).bind fun _ => (calm_load _).bind fun _ => trivial
  have hwrite (features : UInt64) : Calm (writeDriverFeatures features) :=
    (calm_store ..).bind fun _ => (calm_store ..).bind fun _ => (calm_store ..).bind fun _ =>
      calm_store ..
  refine hread.bind fun offered => ?_
  split
  · exact (calm_store ..).bind fun _ => trivial
  · refine (hwrite _).bind fun _ => (calm_addDeviceStatus _).bind fun _ =>
      (calm_load _).bind fun status => ?_
    split
    · exact (calm_store ..).bind fun _ => trivial
    · trivial

theorem calm_readMac (left : Nat) (mac : List UInt8) : Calm (readMac left mac) := by
  induction left generalizing mac with
  | zero => trivial
  | succ left ih => exact Dialogue.Only.bind (only_request.mpr (by simp)) fun _ => ih _

/-! Frames taken. -/

def Takes (t : Stock) (frames : List Nat) (t' : Stock) : Prop :=
  t.left = frames ++ t'.left ∧ t'.taken = t.taken ++ frames

/-- The frames have run out before `n` of them were there. -/
def RunsOut (t : Stock) (n : Nat) (t' : Stock) : Prop :=
  t'.left = [] ∧ t'.taken = t.taken ++ t.left ∧ t.left.length < n

variable {t' t'' : Stock} {xs ys : List Nat} {n m : Nat}

theorem Takes.refl (t : Stock) : Takes t [] t := ⟨rfl, (List.append_nil _).symm⟩

theorem Takes.trans (h : Takes t xs t') (h' : Takes t' ys t'') : Takes t (xs ++ ys) t'' := by
  refine ⟨?_, ?_⟩
  · rw [h.1, h'.1, List.append_assoc]
  · rw [h'.2, h.2, List.append_assoc]

theorem Takes.runsOut (h : Takes t xs t') (h' : RunsOut t' n t'') (hm : xs.length+n ≤ m) :
    RunsOut t m t'' := by
  refine ⟨h'.1, ?_, ?_⟩
  · rw [h'.2.1, h.2, h.1, List.append_assoc]
  · have hn := h'.2.2
    rw [h.1, List.length_append]
    omega

theorem RunsOut.mono (h : RunsOut t n t') (hm : n ≤ m) : RunsOut t m t' :=
  ⟨h.1, h.2.1, Nat.lt_of_lt_of_le h.2.2 hm⟩

theorem keeps_allocFrame {f : Nat → Driver β} (hhalt : ∀ t', RunsOut t 1 t' → last none t')
    (h : ∀ frame t', Takes t [frame] t' → (f frame).Keeps stock last t') :
    (allocFrame >>= f).Keeps stock last t := by
  simp only [allocFrame, bind_assoc]
  refine ⟨by simp [stock], fun answer hanswer => ?_⟩
  have hanswer : answer = t.left.head? := hanswer
  subst hanswer
  change Dialogue.Keeps stock last _ t.take
  unfold Stock.take
  cases hl : t.left with
  | nil =>
    refine hhalt _ ⟨rfl, ?_, ?_⟩
    · rw [hl]
      rfl
    · rw [hl]
      exact Nat.one_pos
  | cons frame rest => exact h frame ⟨rest, t.taken ++ [frame]⟩ ⟨hl, rfl⟩

/-- Buffers `i` to `i+n` in pages of their own, one after the other. -/
def bufferPages (i : Nat) (frames : List Nat) (buffers : Nat → VirtioBuffer) :
    Nat → VirtioBuffer := fun k =>
  if i ≤ k ∧ k < i+frames.length then ⟨frames.getD (k-i) 0*pageSize, false, 0⟩ else buffers k

theorem bufferPages_cons {i frame : Nat} {buffers : Nat → VirtioBuffer} :
    bufferPages (i+1) xs (Function.update buffers i ⟨frame*pageSize, false, 0⟩) =
      bufferPages i (frame :: xs) buffers := by
  funext k
  unfold bufferPages
  rw [List.length_cons]
  by_cases hk : k = i
  · subst hk
    rw [if_neg (by omega), if_pos (by omega), Function.update_self, Nat.sub_self]
    rfl
  · rw [Function.update_of_ne hk]
    by_cases hin : i+1 ≤ k ∧ k < i+1+xs.length
    · rw [if_pos hin, if_pos (by omega)]
      obtain ⟨j,rfl⟩ := Nat.exists_eq_add_of_le hin.1
      rw [Nat.add_sub_cancel_left, show i+1+j-i = j+1 by omega, List.getD_cons_succ]
    · rw [if_neg hin, if_neg (by omega)]

theorem allocPacketBuffers_stock (left i : Nat) (buffers : Nat → VirtioBuffer) :
    (allocPacketBuffers left i buffers).Keeps stock (fun r t' =>
      match r with
      | none => RunsOut t left t'
      | some b => ∃ frames, frames.length = left ∧ Takes t frames t' ∧
        b = bufferPages i frames buffers) t := by
  induction left generalizing i buffers t with
  | zero =>
    refine ⟨[], rfl, .refl t, funext fun k => ?_⟩
    exact (if_neg (by simp)).symm
  | succ left ih =>
    refine keeps_allocFrame (fun t' h => h.mono (by omega)) fun frame t' h => ?_
    refine (ih (i+1) _).mono fun r t'' h' => ?_
    cases r with
    | none => exact h.runsOut h' (by rw [List.length_singleton]; omega)
    | some b =>
      obtain ⟨frames,hlen,htakes,rfl⟩ := h'
      exact ⟨frame :: frames, by rw [List.length_cons, hlen], h.trans htakes, bufferPages_cons⟩

def QueueIn (frames : List Nat) (pages : QueuePages) : Prop :=
  ∃ desc avail used, frames = [desc, avail, used] ∧ pages.descPa = desc*pageSize ∧
    pages.availPa = avail*pageSize ∧ pages.usedPa = used*pageSize

theorem setupVirtqueue_stock (notifyBase : UInt64) (notifyMultiplier : UInt32)
    (queueIndex : UInt16) :
    (setupVirtqueue notifyBase notifyMultiplier queueIndex).Keeps stock (fun r t' =>
      match r with
      | none => RunsOut t 3 t'
      | some none => t' = t
      | some (some pages) => ∃ frames, Takes t frames t' ∧ QueueIn frames pages) t := by
  unfold setupVirtqueue
  refine keeps_calm (calm_store ..) fun _ => keeps_calm (calm_load _) fun maxSize => ?_
  split
  · exact rfl
  · simp only [allocQueuePages, bind_assoc, pure_bind]
    refine keeps_allocFrame (fun t' h => h.mono (by omega)) fun desc t₁ h₁ => ?_
    refine keeps_allocFrame (fun t' h => h₁.runsOut h (by simp)) fun avail t₂ h₂ => ?_
    refine keeps_allocFrame (fun t' h => (h₁.trans h₂).runsOut h (by simp)) fun used t₃ h₃ => ?_
    refine keeps_calm (calm_store ..) fun _ => keeps_calm (calm_store ..) fun _ =>
      keeps_calm (calm_store ..) fun _ => keeps_calm (calm_store ..) fun _ =>
      keeps_calm (calm_load _) fun _ => keeps_calm (calm_store ..) fun _ => ?_
    exact ⟨_, (h₁.trans h₂).trans h₃, desc, avail, used, rfl, rfl, rfl, rfl⟩

theorem QueueIn.length {pages : QueuePages} (h : QueueIn xs pages) : xs.length = 3 := by
  obtain ⟨_,_,_,rfl,-⟩ := h
  rfl

theorem setupQueues_stock (notifyBase : UInt64) (notifyMultiplier : UInt32) (g : NetGlobals) :
    (setupQueues notifyBase notifyMultiplier g).Keeps stock (fun r t' =>
      match r with
      | none => RunsOut t 6 t'
      | some (false, _) => ∃ frames, Takes t frames t' ∧ (frames.length = 0 ∨ frames.length = 3)
      | some (true, g') => ∃ rx tx rxPages txPages, Takes t (rx ++ tx) t' ∧ QueueIn rx rxPages ∧
        QueueIn tx txPages ∧ g' = { g with hw := { g.hw with
          rxPages := rxPages
          txPages := txPages } }) t := by
  refine (setupVirtqueue_stock ..).bind (fun rxPages t₁ h₁ => ?_) fun t₁ h₁ => h₁.mono (by omega)
  cases rxPages with
  | none =>
    obtain rfl : t₁ = t := h₁
    exact keeps_calm (calm_store ..) fun _ => ⟨[], .refl _, .inl rfl⟩
  | some rxPages =>
    obtain ⟨rx,hrx,hrxIn⟩ := h₁
    refine (setupVirtqueue_stock ..).bind (fun txPages t₂ h₂ => ?_)
      fun t₂ h₂ => hrx.runsOut h₂ (by rw [hrxIn.length])
    cases txPages with
    | none =>
      obtain rfl : t₂ = t₁ := h₂
      exact keeps_calm (calm_store ..) fun _ => ⟨rx, hrx, .inr hrxIn.length⟩
    | some txPages =>
      obtain ⟨tx,htx,htxIn⟩ := h₂
      exact ⟨rx, tx, rxPages, txPages, hrx.trans htx, hrxIn, htxIn, rfl⟩

def live (g : NetGlobals) : NetGlobals where
  backend := .virtio
  config := g.config
  hw := { g.hw with
    ready := true
    tx := initTxBuffersLocked g.hw.tx
    rx := initRxBuffersLocked g.hw.rx }

theorem goLive_stock (g : NetGlobals) :
    (goLive g).Keeps stock (fun r t' => r = some (true, live g) ∧ t' = t) t := by
  have hnotify (pages : QueuePages) (i : UInt16) : Calm (notifyQueue pages i) := by
    unfold notifyQueue
    split
    · trivial
    · exact only_request.mpr (by simp)
  exact keeps_calm (hnotify ..) fun _ => keeps_calm (calm_addDeviceStatus _) fun _ =>
    keeps_calm (calm_load _) fun _ => ⟨rfl, rfl⟩

/-- Eight frames for each side's packets and three for each side's rings. -/
structure Placed (frames : List Nat) (mem : Nat → UInt8) (hw : VirtioHwState) : Prop where
  parts : ∃ rxBuffers txBuffers rxRings txRings,
    frames = (rxBuffers ++ txBuffers) ++ (rxRings ++ txRings) ∧
    rxBuffers.length = virtioNetQueueSize ∧ txBuffers.length = virtioNetQueueSize ∧
    hw.rx = initRxBuffersLocked { noHalf mem with
      buffers := bufferPages 0 rxBuffers (noHalf mem).buffers } ∧
    hw.tx = initTxBuffersLocked { noHalf mem with
      buffers := bufferPages 0 txBuffers (noHalf mem).buffers } ∧
    QueueIn rxRings hw.rxPages ∧ QueueIn txRings hw.txPages

theorem Placed.length {frames : List Nat} {mem : Nat → UInt8} {hw : VirtioHwState}
    (h : Placed frames mem hw) : frames.length = 22 := by
  obtain ⟨_,_,_,_,rfl,h1,h2,-,-,h3,h4⟩ := h.parts
  simp only [List.length_append, h1, h2, h3.length, h4.length]
  rfl

def Taken (mem : Nat → UInt8) (r : Option (Bool × NetGlobals)) (t t' : Stock) : Prop :=
  match r with
  | none => RunsOut t 22 t'
  | some (false, _) => ∃ frames, Takes t frames t' ∧ frames.length ∈ [0, 16, 19]
  | some (true, g') => ∃ frames, Takes t frames t' ∧ Placed frames mem g'.hw

theorem startDevice_stock (notifyBase : UInt64) (layout : VirtioPciLayout) (mem : Nat → UInt8)
    (g : NetGlobals) (hw : VirtioHwState) (hrx : g.hw.rx = noHalf mem)
    (htx : g.hw.tx = noHalf mem) :
    (startDevice notifyBase layout g hw).Keeps stock (fun r t' => Taken mem r t t') t := by
  refine (allocPacketBuffers_stock ..).bind (fun rxBuffers t₁ h₁ => ?_) fun t₁ h₁ =>
    RunsOut.mono h₁ (by decide)
  obtain ⟨rx,hrxlen,hrxt,rfl⟩ := h₁
  refine (allocPacketBuffers_stock ..).bind (fun txBuffers t₂ h₂ => ?_) fun t₂ h₂ =>
    hrxt.runsOut h₂ (by rw [hrxlen]; decide)
  obtain ⟨tx,htxlen,htxt,rfl⟩ := h₂
  have hboth := hrxt.trans htxt
  have hlen : (rx ++ tx).length = 16 := by
    rw [List.length_append, hrxlen, htxlen]
    rfl
  refine (setupQueues_stock ..).bind (fun r t₃ h₃ => ?_) fun t₃ h₃ =>
    hboth.runsOut h₃ (by rw [hlen])
  obtain ⟨ok,g'⟩ := r
  cases ok with
  | false =>
    obtain ⟨frames,htakes,hframes⟩ := h₃
    refine ⟨_, hboth.trans htakes, ?_⟩
    rw [List.length_append, hlen]
    obtain h | h := hframes <;> rw [h] <;> decide
  | true =>
    obtain ⟨rxRings,txRings,rxPages,txPages,htakes,hrxIn,htxIn,rfl⟩ := h₃
    refine (goLive_stock _).mono fun r t₄ h₄ => ?_
    obtain ⟨rfl,rfl⟩ := h₄
    refine ⟨_, hboth.trans htakes, ⟨rx, tx, rxRings, txRings, rfl, hrxlen, htxlen, ?_, ?_,
      hrxIn, htxIn⟩⟩
    · rw [← hrx]
      rfl
    · rw [← htx]
      rfl

theorem initDevice_stock {fn : PciFunction} {layout : VirtioPciLayout} {mem : Nat → UInt8}
    {common notifyBase deviceCfg : UInt64} {g : NetGlobals} (hhw : g.hw = noHw mem) :
    (initDevice fn layout common notifyBase deviceCfg g).Keeps stock
      (fun r t' => Taken mem r t t') t := by
  have hnone : ∃ frames, Takes t frames t ∧ frames.length ∈ [0, 16, 19] :=
    ⟨[], .refl t, by decide⟩
  refine keeps_calm (calm_store ..) fun _ => keeps_calm (calm_waitForReset _) fun ok => ?_
  split
  · exact hnone
  · refine keeps_calm (calm_addDeviceStatus _) fun _ =>
      keeps_calm (calm_addDeviceStatus _) fun _ => keeps_calm calm_negotiateFeatures fun wanted => ?_
    cases wanted with
    | none => exact hnone
    | some wanted =>
      have hstart (mac : List UInt8) (hw : VirtioHwState) :=
        startDevice_stock (t := t) notifyBase layout mem
          { g with hw := { g.hw with mac := mac } } hw (by rw [hhw]; rfl) (by rw [hhw]; rfl)
      dsimp only
      split
      · exact keeps_calm (calm_readMac ..) fun mac => hstart ..
      · exact hstart ..

/-! What a device that is live has got. -/

/-- The pages of the receive and the transmit buffers, then those of the rings. -/
def pages (hw : VirtioHwState) : List Nat :=
  (List.range virtioNetQueueSize).map (fun i => (hw.rx.buffers i).pa) ++
    (List.range virtioNetQueueSize).map (fun i => (hw.tx.buffers i).pa) ++
    ([hw.rxPages.descPa, hw.rxPages.availPa, hw.rxPages.usedPa] ++
      [hw.txPages.descPa, hw.txPages.availPa, hw.txPages.usedPa])

theorem pa_bufferPages {buffers : Nat → VirtioBuffer} {i : Nat} (hi : i < xs.length) :
    (bufferPages 0 xs buffers i).pa = xs[i]*pageSize := by
  unfold bufferPages
  rw [if_pos (by omega)]
  exact congrArg (·*pageSize) (List.getD_eq_getElem _ _ hi)

theorem map_pa {buffers buffers' : Nat → VirtioBuffer} (hlen : xs.length = virtioNetQueueSize)
    (h : ∀ i, (buffers' i).pa = (bufferPages 0 xs buffers i).pa) :
    (List.range virtioNetQueueSize).map (fun i => (buffers' i).pa) = xs.map (·*pageSize) := by
  refine List.ext_getElem (by simp [hlen]) fun i hi hi' => ?_
  rw [List.length_map] at hi'
  rw [List.getElem_map, List.getElem_map, List.getElem_range, h, pa_bufferPages hi']

theorem QueueIn.map {queue : QueuePages} (h : QueueIn xs queue) :
    [queue.descPa, queue.availPa, queue.usedPa] = xs.map (·*pageSize) := by
  obtain ⟨desc,avail,used,rfl,h1,h2,h3⟩ := h
  rw [h1, h2, h3]
  rfl

theorem apart_bufferPages {buffers : Nat → VirtioBuffer} (hlen : xs.length = virtioNetQueueSize)
    (hn : xs.Nodup) : Apart (bufferPages 0 xs buffers) := by
  intro i j hi hj hne
  rw [← hlen] at hi hj
  rw [pa_bufferPages hi, pa_bufferPages hj]
  have hdiff : xs[i] ≠ xs[j] := fun h => hne (hn.getElem_inj_iff.mp h)
  change xs[i]*4096+4096 ≤ xs[j]*4096 ∨ xs[j]*4096+4096 ≤ xs[i]*4096
  omega

theorem initRx_pa (h : Half) (i : Nat) :
    ((initRxBuffersLocked h).buffers i).pa = (h.buffers i).pa := by
  unfold initRxBuffersLocked
  dsimp only
  split <;> rfl

theorem initTx_pa (h : Half) (i : Nat) :
    ((initTxBuffersLocked h).buffers i).pa = (h.buffers i).pa := by
  unfold initTxBuffersLocked
  dsimp only
  split <;> rfl

variable {frames : List Nat} {mem : Nat → UInt8} {hw : VirtioHwState}

theorem Placed.pages (h : Placed frames mem hw) :
    BringUpFrames.pages hw = frames.map (·*pageSize) := by
  obtain ⟨rx,tx,rxRings,txRings,rfl,hrxlen,htxlen,hrx,htx,hrxIn,htxIn⟩ := h.parts
  have hrxpa := map_pa hrxlen fun i => show (hw.rx.buffers i).pa =
    (bufferPages 0 rx (noHalf mem).buffers i).pa by rw [hrx, initRx_pa]
  have htxpa := map_pa htxlen fun i => show (hw.tx.buffers i).pa =
    (bufferPages 0 tx (noHalf mem).buffers i).pa by rw [htx, initTx_pa]
  unfold BringUpFrames.pages
  rw [hrxIn.map, htxIn.map, hrxpa, htxpa]
  simp only [List.map_append]

theorem Placed.init (h : Placed frames mem hw) (hn : frames.Nodup) :
    TxRing.txSystem.Init ⟨hw.tx, .idle, .reset, [], []⟩ ∧
      RxRing.rxSystem.Init ⟨hw.rx, .idle, .reset, [], []⟩ := by
  obtain ⟨rx,tx,_,_,rfl,hrxlen,htxlen,hrx,htx,-,-⟩ := h.parts
  have hboth := (List.nodup_append.mp hn).1
  obtain ⟨hrxn,htxn,-⟩ := List.nodup_append.mp hboth
  exact ⟨⟨{ noHalf mem with buffers := bufferPages 0 tx (noHalf mem).buffers },
      apart_bufferPages htxlen htxn, by rw [htx]⟩,
    ⟨{ noHalf mem with buffers := bufferPages 0 rx (noHalf mem).buffers },
      apart_bufferPages hrxlen hrxn, by rw [hrx]⟩⟩

/-! The allocator as the supply. -/

variable {σ : Type*}

/-- The device `D`, which may store to memory, beside the frames the allocator is going to
return, and `map_mmio` in the address space of `cr3`. -/
def withFrames (D : Environment Request Answer (σ × Ram)) (b : Boot) (cr3 : Nat) :
    Environment Request Answer (σ × State) where
  answer
    | (s, ram, pool), .alloc =>
      match PageTables.alloc ram pool with
      | none => (none, (s, ram, pool))
      | some (frame, ram', pool') => (some frame, (s, ram', pool'))
    | (s, ram, pool), .mapMmio pa length =>
      match SharedMappings.mapMmio b cr3 pa.toNat length.toNat (ram, pool) with
      | none => (none, (s, ram, pool))
      | some (ram', pool') => (some (UInt64.ofNat (wrap (pa.toNat+b.hhdmOffset))), (s, ram', pool'))
    | (s, ram, pool), q =>
      let (answer, s', ram') := D.answer (s, ram) q
      (answer, (s', ram', pool))

def mapRegion (b : Boot) (cr3 : Nat) (m : State) (region : UInt64 × UInt64) : Option State :=
  SharedMappings.mapMmio b cr3 region.1.toNat region.2.toNat m

/-- What the bring-up takes once the regions are mapped, which has left `m`, by how it ends:
fewer frames than it needs where the allocator panics, none where `map_mmio` does, and 22 that
hold the buffers and the rings of a device that is live. -/
def Used (b : Boot) (cr3 : Nat) (m : State) (frames left : List Nat)
    (r : Option (Bool × NetGlobals)) : Prop :=
  match r with
  | none => frames.length < 22 ∧ left = [] ∨
    frames = [] ∧ ∃ region, mapRegion b cr3 m region = none
  | some (false, _) => frames.length ∈ [0, 16, 19]
  | some (true, g') => frames.length = 22 ∧ pages g'.hw = frames.map (·*pageSize) ∧
    TxRing.txSystem.Init ⟨g'.hw.tx, .idle, .reset, [], []⟩ ∧
    RxRing.rxSystem.Init ⟨g'.hw.rx, .idle, .reset, [], []⟩

/-- `map_mmio` takes the next frames for at most `n` regions, and then the bring-up its own. -/
def Supplied (b : Boot) (cr3 n : Nat) (m m' : State) (r : Option (Bool × NetGlobals)) : Prop :=
  ∃ (regions : List (UInt64 × UInt64)) (m₁ : State) (tables frames : List Nat),
    regions.length ≤ n ∧ regions.foldlM (mapRegion b cr3) m = some m₁ ∧
    m.2 = tables ++ m₁.2 ∧ m₁.2 = frames ++ m'.2 ∧ Used b cr3 m₁ frames m'.2 r

section Supply
variable {D : Environment Request Answer (σ × Ram)} {b : Boot} {cr3 : Nat}

theorem mapMmioPage_suffix {m m' : State} {curr : Nat}
    (h : SharedMappings.mapMmioPage b cr3 m curr = some m') : m'.2 <:+ m.2 := by
  unfold SharedMappings.mapMmioPage at h
  dsimp only at h
  split at h
  · split at h
    · cases h
    · have hcommon := PageTables.map_suffix ‹_›
      split at h
      · exact (PageTables.map_suffix h).trans hcommon
      · cases h
        exact hcommon
  · cases h

theorem mapMmioPages_suffix {m m' : State} {currs : List Nat}
    (h : currs.foldlM (SharedMappings.mapMmioPage b cr3) m = some m') : m'.2 <:+ m.2 := by
  induction currs generalizing m with
  | nil =>
    cases h
    exact List.suffix_refl _
  | cons curr currs ih =>
    rw [List.foldlM_cons] at h
    obtain ⟨m₁,h₁,h⟩ := Option.bind_eq_some_iff.mp h
    exact (ih h).trans (mapMmioPage_suffix h₁)

theorem mapRegion_suffix {m m' : State} {region : UInt64 × UInt64}
    (h : mapRegion b cr3 m region = some m') : m'.2 <:+ m.2 := by
  unfold mapRegion SharedMappings.mapMmio at h
  split at h
  · cases h
  · split at h
    · cases h
      exact mapMmioPages_suffix ‹_›
    · cases h

theorem Taken.used {mem : Nat → UInt8} {r : Option (Bool × NetGlobals)} {m : State}
    (h : Taken mem r t t') (ht : t.taken = []) (hn : t.left.Nodup) :
    t.left = t'.taken ++ t'.left ∧ Used b cr3 m t'.taken t'.left r := by
  cases r with
  | none =>
    obtain ⟨hleft,htaken,hlen⟩ := h
    rw [ht, List.nil_append] at htaken
    refine ⟨by rw [htaken, hleft, List.append_nil], .inl ⟨?_, hleft⟩⟩
    rw [htaken]
    exact hlen
  | some r =>
    obtain ⟨ok,g'⟩ := r
    cases ok with
    | false =>
      obtain ⟨frames,htakes,hlen⟩ := h
      obtain rfl : t'.taken = frames := by rw [htakes.2, ht, List.nil_append]
      exact ⟨htakes.1, hlen⟩
    | true =>
      obtain ⟨frames,htakes,hplaced⟩ := h
      obtain rfl : t'.taken = frames := by rw [htakes.2, ht, List.nil_append]
      rw [htakes.1] at hn
      exact ⟨htakes.1, hplaced.length, hplaced.pages, hplaced.init (List.nodup_append.mp hn).1⟩

theorem stocked_answer (s : σ × State) (t : Stock) (q : Request)
    (hq : ∀ pa length, q ≠ .mapMmio pa length) (h : s.2.2 = t.left) :
    stock.answers t q ((withFrames D b cr3).answer s q).1 ∧
      ((withFrames D b cr3).answer s q).2.2.2 =
        (stock.next t q ((withFrames D b cr3).answer s q).1).left := by
  obtain ⟨s,ram,pool⟩ := s
  obtain rfl : pool = t.left := h
  cases q with
  | alloc =>
    obtain ⟨left,taken⟩ := t
    cases left with
    | nil => exact ⟨rfl, rfl⟩
    | cons frame left => exact ⟨rfl, rfl⟩
  | mapMmio pa length => exact absurd rfl (hq pa length)
  | _ => exact ⟨trivial, rfl⟩

variable {p : Driver (Bool × NetGlobals)} {n : Nat} {s : σ} {m : State}

theorem supplied_of_stock {mem : Nat → UInt8} (hn : m.2.Nodup)
    (h : ∀ t, p.Keeps stock (fun r t' => Taken mem r t t') t) :
    Supplied b cr3 n m (p.exec (withFrames D b cr3) (s, m)).2.2
      (p.exec (withFrames D b cr3) (s, m)).1 := by
  obtain ⟨t',hleft,htaken⟩ := (h ⟨m.2, []⟩).simulated (E := withFrames D b cr3)
    (I := fun s t => s.2.2 = t.left) (s := (s, m)) stocked_answer rfl
  obtain ⟨hpool,hused⟩ : m.2 = t'.taken ++ t'.left ∧
      Used b cr3 m t'.taken t'.left (p.exec (withFrames D b cr3) (s, m)).1 := htaken.used rfl hn
  rw [← hleft] at hpool hused
  exact ⟨[], m, [], t'.taken, Nat.zero_le _, rfl, rfl, hpool, hused⟩

theorem Supplied.cons {m' m'' : State} {region : UInt64 × UInt64}
    {r : Option (Bool × NetGlobals)} (hm : mapRegion b cr3 m region = some m')
    (h : Supplied b cr3 n m' m'' r) : Supplied b cr3 (n+1) m m'' r := by
  obtain ⟨regions,m₁,tables,frames,hlen,hfold,htables,hframes,hused⟩ := h
  obtain ⟨first,hfirst⟩ := mapRegion_suffix hm
  refine ⟨region :: regions, m₁, first ++ tables, frames, Nat.succ_le_succ hlen, ?_, ?_, hframes,
    hused⟩
  · rw [List.foldlM_cons, hm]
    exact hfold
  · rw [List.append_assoc, ← htables, hfirst]

theorem Supplied.mono {m' : State} {r : Option (Bool × NetGlobals)}
    (h : Supplied b cr3 n m m' r) : Supplied b cr3 (n+1) m m' r := by
  obtain ⟨regions,m₁,tables,frames,hlen,hrest⟩ := h
  exact ⟨regions, m₁, tables, frames, Nat.le_succ_of_le hlen, hrest⟩

theorem mapMmio_exec {pa length : UInt64} :
    (BringUp.mapMmio pa length).exec (withFrames D b cr3) (s, m) =
      ((mapRegion b cr3 m (pa, length)).map fun _ => UInt64.ofNat (wrap (pa.toNat+b.hhdmOffset)),
        s, (mapRegion b cr3 m (pa, length)).getD m) := by
  have hanswer : (withFrames D b cr3).answer (s, m) (.mapMmio pa length) =
      ((mapRegion b cr3 m (pa, length)).map fun _ => UInt64.ofNat (wrap (pa.toNat+b.hhdmOffset)),
        s, (mapRegion b cr3 m (pa, length)).getD m) := by
    unfold mapRegion
    simp only [withFrames]
    cases SharedMappings.mapMmio b cr3 pa.toNat length.toNat m <;> rfl
  unfold BringUp.mapMmio
  change Dialogue.exec _ _ ((withFrames D b cr3).answer (s, m) (.mapMmio pa length)).2 = _
  rw [hanswer]
  cases mapRegion b cr3 m (pa, length) <;> rfl

theorem supplied_mapPciRegion {c : ConfigSpace} {fn : PciFunction} {region : VirtioPciRegion}
    {f : UInt64 → Driver (Bool × NetGlobals)} (hn : m.2.Nodup)
    (h : ∀ va (m : State), m.2.Nodup → Supplied b cr3 n m
      ((f va).exec (withFrames D b cr3) (s, m)).2.2 ((f va).exec (withFrames D b cr3) (s, m)).1) :
    Supplied b cr3 (n+1) m
      ((mapPciRegion c fn region >>= f).exec (withFrames D b cr3) (s, m)).2.2
      ((mapPciRegion c fn region >>= f).exec (withFrames D b cr3) (s, m)).1 := by
  unfold mapPciRegion
  dsimp only
  split
  · exact (h 0 m hn).mono
  · split
    · exact (h 0 m hn).mono
    · generalize pciReadBar c fn region.bar + region.offset.toUInt64 = pa
      generalize region.length.toUInt64 = length
      rw [exec_bind]
      cases hm : mapRegion b cr3 m (pa, length) with
      | none =>
        rw [mapMmio_exec, hm]
        exact ⟨[], m, [], [], Nat.zero_le _, rfl, rfl, rfl, .inr ⟨rfl, _, hm⟩⟩
      | some m' =>
        rw [mapMmio_exec, hm]
        exact Supplied.cons hm (h _ m' (hn.sublist (mapRegion_suffix hm).sublist))

end Supply

/-- A device that keeps its status, offers `VERSION_1` and has queues of 256 entries. -/
def willing : Environment Request Answer (UInt64 × Ram) where
  answer
    | s, .load .deviceStatus => (s.1, s)
    | s, .store .deviceStatus value => ((), (value, s.2))
    | s, .load .deviceFeature => (1, s)
    | s, .load .queueSize => (256, s)
    | s, .load _ => (0, s)
    | s, .store _ _ => ((), s)
    | s, .mapMmio _ _ => (none, s)
    | s, .loadDevice _ => (0, s)
    | s, .alloc => (none, s)
    | s, .notify _ _ => ((), s)

def limineBoot : Boot := ⟨limineMap, by decide, 1⟩

end NetKernel.BringUpFrames
