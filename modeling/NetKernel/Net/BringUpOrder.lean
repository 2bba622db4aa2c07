import NetKernel.Net.BringUp

/-! The order in which the driver brings a virtio device up, as a contract over the requests,
and that `virtio_net_init_pci` keeps it against every device. It is the order of the virtio
specification but for the doorbell, which rings before `DRIVER_OK` and never after it. -/
namespace NetKernel.BringUpOrder
open Dialogues Words Virtio Pcie VirtioPci BringUp

/-! The contract. -/

inductive Phase where
  | start
  | resetting
  | reset
  | acknowledged
  | driver
  | requested
  | rejected
  | confirmed
  | live
  | failed
deriving DecidableEq, Repr

/-- What the device has been told about a queue, and the largest size it takes. -/
structure QueueSetting where
  maxSize : Option UInt16
  size : Option UInt64
  desc : Option UInt64
  driver : Option UInt64
  device : Option UInt64
  enabled : Bool
deriving DecidableEq, Repr

def QueueSetting.fresh : QueueSetting := ⟨none, none, none, none, none, false⟩

/-- `status` is the status loaded just before, if it was; `offered` and `written` are the
feature words by the value of their selector. -/
structure Progress where
  phase : Phase
  status : Option UInt8
  deviceSelect : UInt64
  driverSelect : UInt64
  offered : UInt64 → Option UInt32
  written : UInt64 → Option UInt32
  queueSelect : UInt64
  queues : UInt64 → QueueSetting

def Progress.start : Progress where
  phase := .start
  status := none
  deviceSelect := 0
  driverSelect := 0
  offered _ := none
  written _ := none
  queueSelect := 0
  queues _ := .fresh

/-- The status just loaded with one more bit. -/
def Progress.Adds (p : Progress) (bit : UInt8) (value : UInt64) : Prop :=
  ∃ old, p.status = some old ∧ value = (old ||| bit).toUInt64

/-- Both feature words are written, `VERSION_1` among them. -/
def Progress.Negotiated (p : Progress) : Prop :=
  (p.written 0).isSome = true ∧ ∃ high, p.written 1 = some high ∧ high &&& 1 ≠ 0

def Progress.queue (p : Progress) : QueueSetting := p.queues p.queueSelect

def Progress.mayStoreStatus (p : Progress) (value : UInt64) : Prop :=
  match p.phase with
  | .start => value = 0
  | .reset => p.Adds statusAcknowledge value
  | .acknowledged => p.Adds statusDriver value
  | .driver => value = statusFailed.toUInt64 ∨ p.Adds statusFeaturesOk value ∧ p.Negotiated
  | .rejected => value = statusFailed.toUInt64
  | .confirmed => value = statusFailed.toUInt64 ∨
      p.Adds statusDriverOk value ∧ (p.queues 0).enabled = true ∧ (p.queues 1).enabled = true
  | _ => False

def Progress.asks (p : Progress) : Request → Prop
  | .mapMmio _ _ => p.phase = .start
  | .load .deviceStatus =>
    p.phase ∈ [Phase.resetting, .reset, .acknowledged, .driver, .requested, .confirmed]
  | .store .deviceStatus value => p.mayStoreStatus value
  | .store .deviceFeatureSelect value => p.phase = .driver ∧ value < 2
  | .load .deviceFeature => p.phase = .driver
  | .store .driverFeatureSelect value => p.phase = .driver ∧ value < 2
  | .store .driverFeature value =>
    p.phase = .driver ∧ ∃ offer, p.offered p.driverSelect = some offer ∧
      value.toUInt32 &&& offer = value.toUInt32
  | .loadDevice _ => p.phase = .confirmed
  | .alloc => p.phase = .confirmed
  | .store .queueSelect value => p.phase = .confirmed ∧ value < 2
  | .load .queueSize => p.phase = .confirmed
  | .store .queueSize value =>
    p.phase = .confirmed ∧ p.queue.enabled = false ∧
      ∃ max, p.queue.maxSize = some max ∧ value ≤ max.toUInt64
  | .store .queueDesc _ => p.phase = .confirmed ∧ p.queue.enabled = false
  | .store .queueDriver _ => p.phase = .confirmed ∧ p.queue.enabled = false
  | .store .queueDevice _ => p.phase = .confirmed ∧ p.queue.enabled = false
  | .load .queueNotifyOff => p.phase = .confirmed
  | .store .queueEnable value =>
    p.phase = .confirmed ∧ value = 1 ∧ p.queue.enabled = false ∧ p.queue.size.isSome = true ∧
      p.queue.desc.isSome = true ∧ p.queue.driver.isSome = true ∧ p.queue.device.isSome = true
  -- The specification has the driver ring once the device is live.
  | .notify _ index => p.phase = .confirmed ∧ (p.queues index.toUInt64).enabled = true
  | .load .numQueues => p.phase = .live
  | _ => False

def Progress.setQueue (p : Progress) (f : QueueSetting → QueueSetting) : Progress :=
  { p with queues := Function.update p.queues p.queueSelect (f p.queue) }

def Progress.seeStatus (p : Progress) (status : UInt8) : Progress :=
  match p.phase with
  | .resetting => if status = 0 then { p with phase := .reset } else p
  | .requested =>
    { p with phase := if status &&& statusFeaturesOk = 0 then .rejected else .confirmed }
  | _ => { p with status := some status }

def Phase.afterStatus (value : UInt64) : Phase → Phase
  | .start => .resetting
  | .reset => .acknowledged
  | .acknowledged => .driver
  | .driver => if value = statusFailed.toUInt64 then .failed else .requested
  | .rejected => .failed
  | .confirmed => if value = statusFailed.toUInt64 then .failed else .live
  | phase => phase

def Progress.next (p : Progress) : (q : Request) → Answer q → Progress
  | .load .deviceStatus, status => p.seeStatus status.toUInt8
  | .store .deviceStatus value, _ =>
    { p with phase := p.phase.afterStatus value, status := none }
  | .store .deviceFeatureSelect value, _ => { p with deviceSelect := value, status := none }
  | .load .deviceFeature, offer =>
    { p with
      offered := Function.update p.offered p.deviceSelect (some offer.toUInt32)
      status := none }
  | .store .driverFeatureSelect value, _ => { p with driverSelect := value, status := none }
  | .store .driverFeature value, _ =>
    { p with
      written := Function.update p.written p.driverSelect (some value.toUInt32)
      status := none }
  | .store .queueSelect value, _ => { p with queueSelect := value, status := none }
  | .load .queueSize, max =>
    { p with status := none }.setQueue fun q => { q with maxSize := some max.toUInt16 }
  | .store .queueSize value, _ =>
    { p with status := none }.setQueue fun q => { q with size := some value }
  | .store .queueDesc value, _ =>
    { p with status := none }.setQueue fun q => { q with desc := some value }
  | .store .queueDriver value, _ =>
    { p with status := none }.setQueue fun q => { q with driver := some value }
  | .store .queueDevice value, _ =>
    { p with status := none }.setQueue fun q => { q with device := some value }
  | .store .queueEnable _, _ =>
    { p with status := none }.setQueue fun q => { q with enabled := true }
  | _, _ => { p with status := none }

/-- Whatever the device answers. -/
def order : Contract Request Answer Progress where
  asks := Progress.asks
  answers _ _ _ := True
  next := Progress.next

/-! What each part of the bring-up does. -/

variable {p : Progress} {β : Type} {last : Option β → Progress → Prop}

theorem keeps_ask {q : Request} {f : Answer q → Driver β} :
    (ask q >>= f).Keeps order last p ↔
      p.asks q ∧ ∀ a, (f a).Keeps order last (p.next q a) :=
  ⟨fun h => ⟨h.1, fun a => h.2 a trivial⟩, fun h => ⟨h.1, fun a _ => h.2 a⟩⟩

theorem keeps_load {reg : CommonReg} {f : UInt64 → Driver β} :
    (load reg >>= f).Keeps order last p ↔
      p.asks (.load reg) ∧ ∀ value, (f value).Keeps order last (p.next (.load reg) value) :=
  keeps_ask

theorem keeps_store {reg : CommonReg} {value : UInt64} {f : Unit → Driver β} :
    (store reg value >>= f).Keeps order last p ↔
      p.asks (.store reg value) ∧ (f ()).Keeps order last (p.next (.store reg value) ()) :=
  keeps_ask.trans (and_congr_right fun _ => ⟨fun h => h (), fun h _ => h⟩)

theorem keeps_addDeviceStatus {bit : UInt8} {f : Unit → Driver β}
    (hload : p.phase ∈ [Phase.reset, .acknowledged, .driver, .confirmed])
    (h : ∀ old : UInt8, let t := { p with status := some old }
      t.mayStoreStatus (old ||| bit).toUInt64 ∧ (f ()).Keeps order last
        { t with phase := p.phase.afterStatus (old ||| bit).toUInt64, status := none }) :
    (addDeviceStatus bit >>= f).Keeps order last p := by
  have hsee (old : UInt64) :
      p.next (.load .deviceStatus) old = { p with status := some old.toUInt8 } := by
    change p.seeStatus old.toUInt8 = _
    unfold Progress.seeStatus
    cases hphase : p.phase <;> first | rfl | (rw [hphase] at hload; exact absurd hload (by decide))
  simp only [addDeviceStatus, bind_assoc]
  refine keeps_load.mpr ⟨?_, fun old => ?_⟩
  · change p.phase ∈ _
    cases hphase : p.phase <;> first | decide | (rw [hphase] at hload; exact absurd hload (by decide))
  · rw [hsee]
    obtain ⟨hmay,hrest⟩ := h old.toUInt8
    exact keeps_store.mpr ⟨hmay, hrest⟩

/-! Features. -/

variable {low high : UInt32}

theorem wantedFeatures_cases (offered : UInt64) :
    wantedFeatures offered = virtioFVersion1 ∨
    offered &&& virtioNetFMac ≠ 0 ∧ wantedFeatures offered = virtioFVersion1 ||| virtioNetFMac ∨
    offered &&& virtioNetFStatus ≠ 0 ∧
      wantedFeatures offered = virtioFVersion1 ||| virtioNetFStatus ∨
    offered &&& virtioNetFMac ≠ 0 ∧ offered &&& virtioNetFStatus ≠ 0 ∧
      wantedFeatures offered = virtioFVersion1 ||| virtioNetFMac ||| virtioNetFStatus := by
  unfold wantedFeatures
  by_cases hm : offered &&& virtioNetFMac ≠ 0
  · by_cases hs : offered &&& virtioNetFStatus ≠ 0
    · exact .inr (.inr (.inr ⟨hm, hs, by simp only [if_pos hm, if_pos hs]⟩))
    · exact .inr (.inl ⟨hm, by simp only [if_pos hm, if_neg hs]⟩)
  · by_cases hs : offered &&& virtioNetFStatus ≠ 0
    · exact .inr (.inr (.inl ⟨hs, by simp only [if_neg hm, if_pos hs]⟩))
    · exact .inl (by simp only [if_neg hm, if_neg hs])

theorem and_of_offered {bit : UInt32} {feature : UInt64} (i : Nat) (hi : i < 32)
    (hbit : bit.toNat = 2^i) (hfeature : feature.toNat = 2^i)
    (h : join low high &&& feature ≠ 0) : bit &&& low = bit := by
  have htest := (and_bit_ne_zero i hfeature).mp h
  rw [toNat_join, Nat.testBit_two_pow_mul_add _ low.toNat_lt, if_pos hi] at htest
  rw [← UInt32.toNat_inj, UInt32.toNat_and, hbit, Nat.two_pow_and, htest]
  exact Nat.mul_one _

theorem wanted_low : (wantedFeatures (join low high)).toUInt32 &&& low =
    (wantedFeatures (join low high)).toUInt32 := by
  have hmac (h : join low high &&& virtioNetFMac ≠ 0) : (0x20 : UInt32) &&& low = 0x20 :=
    and_of_offered 5 (by decide) rfl rfl h
  have hstatus (h : join low high &&& virtioNetFStatus ≠ 0) : (0x10000 : UInt32) &&& low = 0x10000 :=
    and_of_offered 16 (by decide) rfl rfl h
  obtain h | ⟨hm,h⟩ | ⟨hs,h⟩ | ⟨hm,hs,h⟩ := wantedFeatures_cases (join low high)
  · rw [h]
    exact UInt32.zero_and
  · rw [h]
    exact hmac hm
  · rw [h]
    exact hstatus hs
  · rw [h]
    change (0x20 ||| 0x10000) &&& low = 0x20 ||| 0x10000
    rw [← UInt32.toNat_inj, UInt32.toNat_and, UInt32.toNat_or, Nat.and_or_distrib_right,
      ← UInt32.toNat_and, ← UInt32.toNat_and, hmac hm, hstatus hs]

theorem wanted_high (offered : UInt64) : (wantedFeatures offered >>> 32).toUInt32 = 1 := by
  obtain h | ⟨-,h⟩ | ⟨-,h⟩ | ⟨-,-,h⟩ := wantedFeatures_cases offered
  all_goals rw [h]; rfl

theorem version_offered (h : join low high &&& virtioFVersion1 ≠ 0) : 1 &&& high = 1 := by
  have htest := (and_bit_ne_zero 32 rfl).mp h
  rw [toNat_join, Nat.testBit_two_pow_mul_add _ low.toNat_lt, if_neg (by decide)] at htest
  rw [← UInt32.toNat_inj, UInt32.toNat_and]
  change 2^0 &&& high.toNat = 2^0
  rw [Nat.two_pow_and, htest]
  rfl

/-! The parts of the bring-up. -/

theorem waitForReset_order (polls : Nat) (hp : p.phase = .resetting)
    (hq : p.queues = fun _ => .fresh) :
    (waitForReset polls).Keeps order (fun r t => t.queues = (fun _ => .fresh) ∧
      (r = some true ∧ t.phase = .reset ∨ r = some false ∧ t.phase = .resetting)) p := by
  induction polls generalizing p with
  | zero => exact ⟨hq, .inr ⟨rfl, hp⟩⟩
  | succ polls ih =>
    refine keeps_load.mpr ⟨?_, fun status => ?_⟩
    · change p.phase ∈ _
      rw [hp]
      decide
    · have hsee : p.next (.load .deviceStatus) status =
          if status.toUInt8 = 0 then { p with phase := .reset } else p := by
        change p.seeStatus status.toUInt8 = _
        rw [Progress.seeStatus, hp]
      rw [hsee]
      by_cases h0 : status.toUInt8 = 0
      · rw [if_pos h0, if_pos h0]
        exact ⟨hq, .inl ⟨rfl, rfl⟩⟩
      · rw [if_neg h0, if_neg h0]
        exact ih hp hq

theorem ne_failed (old : UInt8) {bit : UInt8} (h : bit = 4 ∨ bit = 8) :
    (old ||| bit).toUInt64 ≠ statusFailed.toUInt64 := by
  have hall : ∀ x : Fin 256, UInt8.ofFin x ||| 4 ≠ 128 ∧ UInt8.ofFin x ||| 8 ≠ 128 := by
    decide +kernel
  intro heq
  have heq : old ||| bit = 128 := UInt8.toNat_inj.mp (congrArg UInt64.toNat heq)
  obtain rfl | rfl := h
  · exact (hall old.toFin).1 heq
  · exact (hall old.toFin).2 heq

theorem readDeviceFeatures_order (hp : p.phase = .driver) (hq : p.queues = fun _ => .fresh) :
    readDeviceFeatures.Keeps order (fun r t => t.phase = .driver ∧ (t.queues = fun _ => .fresh) ∧
      ∃ low high, r = some (join low high) ∧ t.offered 0 = some low ∧ t.offered 1 = some high) p := by
  refine keeps_store.mpr ⟨⟨hp, by decide⟩, keeps_load.mpr ⟨hp, fun low => ?_⟩⟩
  refine keeps_store.mpr ⟨⟨hp, by decide⟩, keeps_load.mpr ⟨hp, fun high => ?_⟩⟩
  refine ⟨hp, hq, low.toUInt32, high.toUInt32, rfl, ?_, ?_⟩
  · change
      Function.update (Function.update p.offered 0 (some low.toUInt32)) 1 (some high.toUInt32) 0 = _
    rw [Function.update_of_ne (by decide), Function.update_self]
  · change
      Function.update (Function.update p.offered 0 (some low.toUInt32)) 1 (some high.toUInt32) 1 = _
    rw [Function.update_self]

theorem writeDriverFeatures_order (hp : p.phase = .driver) (hq : p.queues = fun _ => .fresh)
    (hlow : p.offered 0 = some low) (hhigh : p.offered 1 = some high)
    (hversion : join low high &&& virtioFVersion1 ≠ 0) :
    (writeDriverFeatures (wantedFeatures (join low high))).Keeps order (fun r t =>
      r = some () ∧ t.phase = .driver ∧ (t.queues = fun _ => .fresh) ∧ t.Negotiated) p := by
  have hword (x : UInt32) : x.toUInt64.toUInt32 = x := by
    rw [← UInt32.toNat_inj, UInt64.toNat_toUInt32, UInt32.toNat_toUInt64]
    exact Nat.mod_eq_of_lt x.toNat_lt
  unfold writeDriverFeatures
  generalize hw : wantedFeatures (join low high) = wanted
  have hwlow : wanted.toUInt32 &&& low = wanted.toUInt32 := by
    rw [← hw]
    exact wanted_low
  have hwhigh : (wanted >>> 32).toUInt32 = 1 := by
    rw [← hw]
    exact wanted_high _
  rw [hwhigh]
  refine keeps_store.mpr ⟨⟨hp, by decide⟩, keeps_store.mpr ⟨⟨hp, low, hlow, ?_⟩, ?_⟩⟩
  · rw [hword]
    exact hwlow
  · refine keeps_store.mpr ⟨⟨hp, by decide⟩, ?_⟩
    refine keeps_ask.mpr ⟨⟨hp, high, hhigh, version_offered hversion⟩, fun _ => ?_⟩
    have hwritten : ∀ a b : Option UInt32,
        Function.update (Function.update p.written 0 a) 1 b 0 = a ∧
          Function.update (Function.update p.written 0 a) 1 b 1 = b := fun a b => by
      rw [Function.update_of_ne (by decide), Function.update_self, Function.update_self]
      exact ⟨rfl, rfl⟩
    obtain ⟨h0,h1⟩ := hwritten (some wanted.toUInt32.toUInt64.toUInt32) (some 1)
    exact ⟨rfl, hp, hq, Option.isSome_iff_exists.mpr ⟨_, h0⟩, 1, h1, by decide⟩

theorem negotiateFeatures_order (hp : p.phase = .driver) (hq : p.queues = fun _ => .fresh) :
    negotiateFeatures.Keeps order (fun r t => (t.queues = fun _ => .fresh) ∧
      ((∃ wanted, r = some (some wanted) ∧ t.phase = .confirmed) ∨
        r = some none ∧ t.phase = .failed)) p := by
  refine (readDeviceFeatures_order hp hq).bind (fun offered t h => ?_) fun t h => ?_
  · obtain ⟨hp,hq,low,high,hr,hlow,hhigh⟩ := h
    obtain rfl := Option.some_inj.mp hr
    by_cases hv : join low high &&& virtioFVersion1 = 0
    · rw [if_pos hv]
      refine keeps_store.mpr ⟨?_, hq, .inr ⟨rfl, ?_⟩⟩
      · change t.mayStoreStatus _
        rw [Progress.mayStoreStatus, hp]
        exact .inl rfl
      · change t.phase.afterStatus _ = _
        rw [hp]
        rfl
    · rw [if_neg hv]
      refine (writeDriverFeatures_order hp hq hlow hhigh hv).bind (fun _ t h => ?_) fun t h => ?_
      · obtain ⟨-,hp,hq,hn⟩ := h
        refine keeps_addDeviceStatus (by rw [hp]; decide) fun old => ⟨?_, ?_⟩
        · rw [Progress.mayStoreStatus]
          simp only [hp]
          exact .inr ⟨⟨old, rfl, rfl⟩, hn⟩
        · have hphase : t.phase.afterStatus (old ||| statusFeaturesOk).toUInt64 = .requested := by
            rw [hp]
            exact if_neg (ne_failed old (.inr rfl))
          rw [hphase]
          refine keeps_load.mpr ⟨List.mem_of_elem_eq_true rfl, fun status => ?_⟩
          by_cases hs : status.toUInt8 &&& statusFeaturesOk = 0
          · have hsee : Progress.next { t with phase := .requested, status := none }
                (.load .deviceStatus) status = { t with phase := .rejected, status := none } :=
              congrArg (fun phase => { t with phase := phase, status := none }) (if_pos hs)
            rw [if_pos hs, hsee]
            exact keeps_store.mpr ⟨rfl, hq, .inr ⟨rfl, rfl⟩⟩
          · have hsee : Progress.next { t with phase := .requested, status := none }
                (.load .deviceStatus) status = { t with phase := .confirmed, status := none } :=
              congrArg (fun phase => { t with phase := phase, status := none }) (if_neg hs)
            rw [if_neg hs, hsee]
            exact ⟨hq, .inl ⟨_, rfl, rfl⟩⟩
      · cases h.1
  · obtain ⟨-,-,_,_,hr,-⟩ := h
    cases hr

theorem readMac_order (left : Nat) (mac : List UInt8) (hp : p.phase = .confirmed) :
    (readMac left mac).Keeps order (fun r t =>
      r.isSome = true ∧ t.phase = .confirmed ∧ t.queues = p.queues) p := by
  induction left generalizing mac p with
  | zero => exact ⟨rfl, hp, rfl⟩
  | succ left ih => exact keeps_ask.mpr ⟨hp, fun byte => ih (p := p.next _ byte) _ hp⟩

theorem keeps_allocFrame {f : Nat → Driver β} (hp : p.phase = .confirmed)
    (h : ∀ ppn, (f ppn).Keeps order last { p with status := none })
    (hhalt : last none { p with status := none }) :
    (allocFrame >>= f).Keeps order last p := by
  simp only [allocFrame, bind_assoc]
  refine keeps_ask.mpr ⟨hp, fun ppn => ?_⟩
  cases ppn with
  | none => exact hhalt
  | some ppn => exact h ppn

theorem allocPacketBuffers_order (left i : Nat) (buffers : Nat → VirtioBuffer)
    (hp : p.phase = .confirmed) :
    (allocPacketBuffers left i buffers).Keeps order (fun _ t =>
      t.phase = .confirmed ∧ t.queues = p.queues) p := by
  induction left generalizing i buffers p with
  | zero => exact ⟨hp, rfl⟩
  | succ left ih =>
    exact keeps_allocFrame hp (fun ppn => ih (p := { p with status := none }) _ _ hp) ⟨hp, rfl⟩

/-- Queue `i` is selected and set up as far as `setting`, the others as in `queues`. -/
structure Selected (queues : UInt64 → QueueSetting) (i : UInt64) (setting : QueueSetting)
    (t : Progress) : Prop where
  phase : t.phase = .confirmed
  select : t.queueSelect = i
  queues : t.queues = Function.update queues i setting

variable {queues : UInt64 → QueueSetting} {i : UInt64} {setting : QueueSetting} {t : Progress}

theorem Selected.queue (h : Selected queues i setting t) : t.queue = setting := by
  rw [Progress.queue, h.queues, h.select, Function.update_self]

theorem Selected.keep (h : Selected queues i setting t) :
    Selected queues i setting { t with status := none } := ⟨h.phase, h.select, h.queues⟩

theorem Selected.set (h : Selected queues i setting t) (f : QueueSetting → QueueSetting) :
    Selected queues i (f setting) ({ t with status := none }.setQueue f) := by
  refine ⟨h.phase, h.select, ?_⟩
  change Function.update t.queues t.queueSelect (f t.queue) = _
  rw [h.queue, h.queues, h.select, Function.update_idem]

theorem setupVirtqueue_order {notifyBase : UInt64} {notifyMultiplier : UInt32}
    {queueIndex : UInt16} (hp : p.phase = .confirmed) (hindex : queueIndex.toUInt64 < 2)
    (hfresh : p.queues queueIndex.toUInt64 = .fresh) :
    (setupVirtqueue notifyBase notifyMultiplier queueIndex).Keeps order (fun r t =>
      ∃ setting, Selected p.queues queueIndex.toUInt64 setting t ∧
        ∀ pages, r = some (some pages) → setting.enabled = true) p := by
  have h0 : Selected p.queues queueIndex.toUInt64 .fresh
      (p.next (.store .queueSelect queueIndex.toUInt64) ()) :=
    ⟨hp, rfl, by rw [← hfresh, Function.update_eq_self]; rfl⟩
  unfold setupVirtqueue
  refine keeps_store.mpr ⟨⟨hp, hindex⟩, keeps_load.mpr ⟨hp, fun maxSize => ?_⟩⟩
  have h1 : Selected p.queues queueIndex.toUInt64 _
      ((p.next (.store .queueSelect queueIndex.toUInt64) ()).next (.load .queueSize) maxSize) :=
    h0.set fun q => { q with maxSize := some maxSize.toUInt16 }
  generalize (p.next _ _).next _ _ = t at h1 ⊢
  by_cases hsize : maxSize.toUInt16.toNat < virtioNetQueueSize
  · rw [if_pos hsize]
    exact ⟨_, h1, fun pages hr => by cases hr⟩
  · rw [if_neg hsize]
    have hhalt {t : Progress} {setting : QueueSetting}
        (h : Selected p.queues queueIndex.toUInt64 setting t) :
        ∃ setting, Selected p.queues queueIndex.toUInt64 setting t ∧
          ∀ pages : QueuePages, (none : Option (Option QueuePages)) = some (some pages) →
            setting.enabled = true := ⟨_, h, fun pages hr => by cases hr⟩
    simp only [allocQueuePages, bind_assoc, pure_bind]
    refine keeps_allocFrame h1.phase (fun descPpn => ?_) (hhalt h1.keep)
    refine keeps_allocFrame h1.phase (fun availPpn => ?_) (hhalt h1.keep)
    refine keeps_allocFrame h1.phase (fun usedPpn => ?_) (hhalt h1.keep)
    have hmax : (8 : UInt64) ≤ maxSize.toUInt16.toUInt64 := by
      rw [UInt64.le_iff_toNat_le, UInt16.toNat_toUInt64]
      exact Nat.le_of_not_lt hsize
    have h2 := h1.set fun q => { q with size := some 8 }
    have h3 := h2.set fun q => { q with desc := some (UInt64.ofNat (descPpn*pageSize)) }
    have h4 := h3.set fun q => { q with driver := some (UInt64.ofNat (availPpn*pageSize)) }
    have h5 := h4.set fun q => { q with device := some (UInt64.ofNat (usedPpn*pageSize)) }
    have hqueue := h1.queue
    refine keeps_store.mpr ⟨⟨h1.phase, congrArg QueueSetting.enabled hqueue, maxSize.toUInt16,
      congrArg QueueSetting.maxSize hqueue, hmax⟩, ?_⟩
    refine keeps_store.mpr ⟨⟨h2.phase, congrArg QueueSetting.enabled h2.queue⟩, ?_⟩
    refine keeps_store.mpr ⟨⟨h3.phase, congrArg QueueSetting.enabled h3.queue⟩, ?_⟩
    refine keeps_store.mpr ⟨⟨h4.phase, congrArg QueueSetting.enabled h4.queue⟩, ?_⟩
    refine keeps_load.mpr ⟨h5.phase, fun notifyOff => ?_⟩
    have hset := h5.keep.queue
    refine keeps_store.mpr ⟨⟨h5.phase, rfl, congrArg QueueSetting.enabled hset,
      congrArg (·.size.isSome) hset, congrArg (·.desc.isSome) hset,
      congrArg (·.driver.isSome) hset, congrArg (·.device.isSome) hset⟩, ?_⟩
    exact ⟨_, h5.keep.set fun q => { q with enabled := true }, fun _ _ => rfl⟩

theorem keeps_fail {f : Unit → Driver β} (hp : p.phase = .confirmed)
    (h : (f ()).Keeps order last { p with phase := .failed, status := none }) :
    (store .deviceStatus statusFailed.toUInt64 >>= f).Keeps order last p := by
  refine keeps_store.mpr ⟨?_, ?_⟩
  · change p.mayStoreStatus _
    rw [Progress.mayStoreStatus, hp]
    exact .inl rfl
  · have hnext : p.next (.store .deviceStatus statusFailed.toUInt64) () =
        { p with phase := .failed, status := none } := by
      change { p with phase := p.phase.afterStatus _, status := none } = _
      rw [hp]
      rfl
    rwa [hnext]

def Unused (g g' : NetGlobals) : Prop := g'.backend = g.backend ∧ g'.hw.ready = g.hw.ready

/-- How the bring-up can end once the features are confirmed. -/
def Ends (g : NetGlobals) (r : Option (Bool × NetGlobals)) (t : Progress) : Prop :=
  match r with
  | none => t.phase = .confirmed
  | some (false, g') => t.phase = .failed ∧ Unused g g'
  | some (true, g') => t.phase = .live ∧ g'.backend = .virtio ∧ g'.hw.ready = true

theorem setupQueues_order {notifyBase : UInt64} {notifyMultiplier : UInt32} {g : NetGlobals}
    (hp : p.phase = .confirmed) (hq : p.queues = fun _ => .fresh) :
    (setupQueues notifyBase notifyMultiplier g).Keeps order (fun r t =>
      match r with
      | none => t.phase = .confirmed
      | some (false, g') => t.phase = .failed ∧ Unused g g'
      | some (true, g') => t.phase = .confirmed ∧ Unused g g' ∧
        (t.queues 0).enabled = true ∧ (t.queues 1).enabled = true) p := by
  refine (setupVirtqueue_order hp (by decide) (congrFun hq _)).bind (fun pages t h => ?_) ?_
  · obtain ⟨rxSetting,hrx,hon⟩ := h
    cases pages with
    | none => exact keeps_fail hrx.phase ⟨rfl, rfl, rfl⟩
    | some rxPages =>
      have hfresh : t.queues virtioNetTxQueue.toUInt64 = .fresh := by
        rw [hrx.queues, Function.update_of_ne (by decide), hq]
      refine (setupVirtqueue_order hrx.phase (by decide) hfresh).bind (fun pages u h => ?_) ?_
      · obtain ⟨txSetting,htx,hon'⟩ := h
        cases pages with
        | none => exact keeps_fail htx.phase ⟨rfl, rfl, rfl⟩
        | some txPages =>
          refine ⟨htx.phase, ⟨rfl, rfl⟩, ?_, ?_⟩
          · rw [htx.queues, Function.update_of_ne (by decide), hrx.queues]
            change (Function.update p.queues 0 rxSetting 0).enabled = true
            rw [Function.update_self]
            exact hon rxPages rfl
          · rw [htx.queues]
            change (Function.update t.queues 1 txSetting 1).enabled = true
            rw [Function.update_self]
            exact hon' txPages rfl
      · rintro u ⟨_,htx,-⟩
        exact htx.phase
  · rintro t ⟨_,hrx,-⟩
    exact hrx.phase

theorem goLive_order {g g' : NetGlobals} (hp : p.phase = .confirmed)
    (hrx : (p.queues 0).enabled = true) (htx : (p.queues 1).enabled = true) :
    (goLive g').Keeps order (Ends g) p := by
  unfold goLive
  have hlive {p : Progress} (hp : p.phase = .confirmed) (hrx : (p.queues 0).enabled = true)
      (htx : (p.queues 1).enabled = true) (g' : NetGlobals) (hb : g'.backend = .virtio)
      (hr : g'.hw.ready = true) :
      (addDeviceStatus statusDriverOk >>= fun _ => load .numQueues >>= fun _ =>
        pure (true, g')).Keeps order (Ends g) p := by
    refine keeps_addDeviceStatus (by rw [hp]; decide) fun old => ⟨?_, ?_⟩
    · simp only [Progress.mayStoreStatus, hp]
      exact .inr ⟨⟨old, rfl, rfl⟩, hrx, htx⟩
    · have hphase : p.phase.afterStatus (old ||| statusDriverOk).toUInt64 = .live := by
        rw [hp]
        exact if_neg (ne_failed old (.inl rfl))
      rw [hphase]
      exact keeps_load.mpr ⟨rfl, fun _ => ⟨rfl, hb, hr⟩⟩
  dsimp only
  unfold notifyQueue
  split
  · exact hlive hp hrx htx _ rfl rfl
  · exact keeps_ask.mpr ⟨⟨hp, hrx⟩, fun _ =>
      hlive (p := { p with status := none }) hp hrx htx _ rfl rfl⟩

theorem startDevice_order {notifyBase : UInt64} {layout : VirtioPciLayout} {g : NetGlobals}
    {hw : VirtioHwState} (hp : p.phase = .confirmed) (hq : p.queues = fun _ => .fresh) :
    (startDevice notifyBase layout g hw).Keeps order (Ends g) p := by
  refine (allocPacketBuffers_order _ _ _ hp).bind (fun rxBuffers t h => ?_) fun t h => h.1
  refine (allocPacketBuffers_order _ _ _ h.1).bind (fun txBuffers u hu => ?_) fun u hu => hu.1
  refine (setupQueues_order hu.1 (hu.2.trans (h.2.trans hq))).bind (fun r v hv => ?_)
    fun v hv => hv
  obtain ⟨ok,g'⟩ := r
  cases ok with
  | false => exact hv
  | true => exact goLive_order hv.1 hv.2.2.1 hv.2.2.2

/-- How `virtio_net_init_pci` ends; it panics while it maps the regions or takes frames. -/
def Outcome (g : NetGlobals) (r : Option (Bool × NetGlobals)) (t : Progress) : Prop :=
  match r with
  | none => t.phase ∈ [Phase.start, .confirmed]
  | some (false, g') =>
    t.phase ∈ [Phase.start, .resetting, .failed] ∧ g'.backend = g.backend ∧ g'.hw.ready = false
  | some (true, g') =>
    (t.phase = .live ∨ g.hw.ready = true ∧ t.phase = .start) ∧
      g'.backend = .virtio ∧ g'.hw.ready = true

theorem Ends.outcome {g g₀ : NetGlobals} {r : Option (Bool × NetGlobals)} (h : Ends g r t)
    (hb : g.backend = g₀.backend) (hr : g.hw.ready = false) : Outcome g₀ r t := by
  cases r with
  | none =>
    have hphase : t.phase = .confirmed := h
    change t.phase ∈ _
    rw [hphase]
    decide
  | some r =>
    obtain ⟨ok,g'⟩ := r
    cases ok with
    | false =>
      obtain ⟨hphase,hbackend,hready⟩ := h
      exact ⟨by rw [hphase]; decide, hbackend.trans hb, hready.trans hr⟩
    | true => exact ⟨.inl h.1, h.2⟩

theorem initDevice_order {fn : PciFunction} {layout : VirtioPciLayout}
    {common notifyBase deviceCfg : UInt64} {g g₀ : NetGlobals} (hp : p.phase = .start)
    (hq : p.queues = fun _ => .fresh) (hb : g.backend = g₀.backend) (hr : g.hw.ready = false) :
    (initDevice fn layout common notifyBase deviceCfg g).Keeps order (Outcome g₀) p := by
  refine keeps_store.mpr ⟨?_, ?_⟩
  · change p.mayStoreStatus 0
    rw [Progress.mayStoreStatus, hp]
  · have hphase : (p.next (.store .deviceStatus 0) ()).phase = .resetting := by
      change p.phase.afterStatus 0 = _
      rw [hp]
      rfl
    refine (waitForReset_order _ hphase hq).bind (fun ok t h => ?_) fun t h => ?_
    · obtain ⟨hq,⟨hok,hp⟩ | ⟨hok,hp⟩⟩ := h
      · obtain rfl := Option.some_inj.mp hok
        refine keeps_addDeviceStatus (by rw [hp]; decide) fun old => ⟨?_, ?_⟩
        · rw [Progress.mayStoreStatus]
          simp only [hp]
          exact ⟨old, rfl, rfl⟩
        · simp only [hp, Phase.afterStatus]
          refine keeps_addDeviceStatus (List.mem_of_elem_eq_true rfl) fun old' =>
            ⟨⟨old', rfl, rfl⟩, ?_⟩
          refine (negotiateFeatures_order (p := { t with phase := .driver, status := none }) rfl
            hq).bind (fun wanted u h => ?_) fun u h => ?_
          · obtain ⟨hq,⟨features,hw,hp⟩ | ⟨hw,hp⟩⟩ := h
            · obtain rfl := Option.some_inj.mp hw
              have hstart {mac : List UInt8} {v : Progress} (hv : v.phase = .confirmed)
                  (hvq : v.queues = fun _ => .fresh) :
                  Dialogue.Keeps order (Outcome g₀) (startDevice notifyBase layout
                    { g with hw := { g.hw with mac := mac } }
                    { g.hw with
                      pci := fn
                      layout := layout
                      common := common
                      deviceCfg := deviceCfg
                      features := features }) v :=
                (startDevice_order hv hvq).mono fun r t h => Ends.outcome h hb hr
              dsimp only
              split
              · refine (readMac_order 6 [] hp).bind (fun mac v h => ?_) fun v h => ?_
                · exact hstart h.2.1 (h.2.2.trans hq)
                · cases h.1
              · exact hstart hp hq
            · obtain rfl := Option.some_inj.mp hw
              exact ⟨by rw [hp]; decide, hb, hr⟩
          · obtain ⟨-,⟨_,hw,-⟩ | ⟨hw,-⟩⟩ := h <;> cases hw
      · obtain rfl := Option.some_inj.mp hok
        exact ⟨by rw [hp]; decide, hb, hr⟩
    · obtain ⟨-,⟨hok,-⟩ | ⟨hok,-⟩⟩ := h <;> cases hok

theorem mapPciRegion_order {c : ConfigSpace} {fn : PciFunction} {region : VirtioPciRegion}
    (hp : p.phase = .start) (hq : p.queues = fun _ => .fresh) :
    (mapPciRegion c fn region).Keeps order (fun _ t =>
      t.phase = .start ∧ t.queues = fun _ => .fresh) p := by
  unfold mapPciRegion
  dsimp only
  split
  · exact ⟨hp, hq⟩
  · split
    · exact ⟨hp, hq⟩
    · refine keeps_ask.mpr ⟨hp, fun answer => ?_⟩
      cases answer with
      | none => exact ⟨hp, hq⟩
      | some va => exact ⟨hp, hq⟩

end NetKernel.BringUpOrder
