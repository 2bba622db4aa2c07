import NetKernel.Lib.Dialogue
import NetKernel.Net.Virtio
import NetKernel.Net.VirtioPci

/-! `virtio_net_init_pci` as a dialogue: every register of the device it loads or stores,
every mapping and every frame it asks for is a request, in the order of the source. -/
namespace NetKernel.BringUp
open Dialogues Virtio Pcie VirtioPci

/-- The fields of `VirtioPciCommonCfg` the driver uses. -/
inductive CommonReg where
  | deviceFeatureSelect
  | deviceFeature
  | driverFeatureSelect
  | driverFeature
  | numQueues
  | deviceStatus
  | queueSelect
  | queueSize
  | queueEnable
  | queueNotifyOff
  | queueDesc
  | queueDriver
  | queueDevice
deriving DecidableEq, Repr

/-- `load` and `store` go to the common configuration, `loadDevice` to a byte of the
device configuration; `notify` stores a queue index at an address. -/
inductive Request where
  | mapMmio (pa length : UInt64)
  | load (reg : CommonReg)
  | store (reg : CommonReg) (value : UInt64)
  | loadDevice (i : Nat)
  | alloc
  | notify (address : UInt64) (value : UInt16)
deriving DecidableEq, Repr

/-- `map_mmio` gives an address and `alloc` a frame, none where it panics. -/
abbrev Answer : Request → Type
  | .mapMmio _ _ => Option UInt64
  | .load _ => UInt64
  | .store _ _ => Unit
  | .loadDevice _ => UInt8
  | .alloc => Option Nat
  | .notify _ _ => Unit

abbrev Driver := Dialogue Request Answer

abbrev ask (q : Request) : Driver (Answer q) := request q

abbrev statusAcknowledge : UInt8 := 1
abbrev statusDriver : UInt8 := 2
abbrev statusDriverOk : UInt8 := 4
abbrev statusFeaturesOk : UInt8 := 8
abbrev statusFailed : UInt8 := 128

abbrev virtioFVersion1 : UInt64 := 0x100000000
abbrev virtioNetFMac : UInt64 := 0x20
abbrev virtioNetFStatus : UInt64 := 0x10000

abbrev virtioNetRxQueue : UInt16 := 0
abbrev virtioNetTxQueue : UInt16 := 1

/-- The bound of the loop of `wait_for_reset`. -/
abbrev resetPolls : Nat := 1000000

inductive BackendKind where
  | none
  | fake
  | virtio
deriving DecidableEq, Repr

/-- The fields of `VirtioQueue` that tell the device and the driver where the rings are. -/
structure QueuePages where
  descPa : Nat
  availPa : Nat
  usedPa : Nat
  notify : UInt64
deriving DecidableEq, Repr

/-- `g_hw`; a null pointer is 0. -/
structure VirtioHwState where
  ready : Bool
  pci : PciFunction
  layout : VirtioPciLayout
  common : UInt64
  deviceCfg : UInt64
  rx : Half
  tx : Half
  rxPages : QueuePages
  txPages : QueuePages
  mac : List UInt8
  features : UInt64

/-- The parts of `g_net` and `g_hw` the bring-up touches, and the configuration space. -/
structure NetGlobals where
  backend : BackendKind
  hw : VirtioHwState
  config : ConfigSpace

/-- Rings in zeroed pages. -/
def zeroQueue : VirtioQueue :=
  ⟨fun _ => ⟨0, 0, 0, 0⟩, ⟨0, 0, fun _ => 0⟩, ⟨0, 0, fun _ => ⟨0, 0⟩⟩, 0, 0⟩

def noPages : QueuePages := ⟨0, 0, 0, 0⟩

/-- One direction before it has pages, over the memory there is. -/
def noHalf (mem : Nat → UInt8) : Half := ⟨zeroQueue, fun _ => ⟨0, false, 0⟩, mem⟩

/-- `g_hw = {}`. -/
def noHw (mem : Nat → UInt8) : VirtioHwState where
  ready := false
  pci := ⟨0, 0, 0, 0, 0, 0, 0, 0, 0, 0⟩
  layout := .none
  common := 0
  deviceCfg := 0
  rx := noHalf mem
  tx := noHalf mem
  rxPages := noPages
  txPages := noPages
  mac := List.replicate 6 0
  features := 0

def load (reg : CommonReg) : Driver UInt64 := ask (.load reg)

def store (reg : CommonReg) (value : UInt64) : Driver Unit := ask (.store reg value)

/-- `physMem.alloc()`, which panics when no frame is left. -/
def allocFrame : Driver Nat := do
  match ← ask .alloc with
  | some ppn => pure ppn
  | none => .halt

/-- `VMM::map_mmio`, which panics when no frame is left for a page table. -/
def mapMmio (pa length : UInt64) : Driver UInt64 := do
  match ← ask (.mapMmio pa length) with
  | some va => pure va
  | none => .halt

/-- The null pointer where the region is not there. -/
def mapPciRegion (c : ConfigSpace) (fn : PciFunction) (region : VirtioPciRegion) :
    Driver UInt64 :=
  if region.present = false then pure 0
  else
    let base := pciReadBar c fn region.bar
    if base = 0 then pure 0
    else mapMmio (base + region.offset.toUInt64) region.length.toUInt64

def readDeviceFeatures : Driver UInt64 := do
  store .deviceFeatureSelect 0
  let low ← load .deviceFeature
  store .deviceFeatureSelect 1
  let high ← load .deviceFeature
  pure (Words.join low.toUInt32 high.toUInt32)

def writeDriverFeatures (features : UInt64) : Driver Unit := do
  store .driverFeatureSelect 0
  store .driverFeature features.toUInt32.toUInt64
  store .driverFeatureSelect 1
  store .driverFeature (features >>> 32).toUInt32.toUInt64

def addDeviceStatus (status : UInt8) : Driver Unit := do
  let old ← load .deviceStatus
  store .deviceStatus (old.toUInt8 ||| status).toUInt64

/-- `wait_for_reset`, from `polls` rounds before its end. -/
def waitForReset : Nat → Driver Bool
  | 0 => pure false
  | polls+1 => do
    let status ← load .deviceStatus
    if status.toUInt8 = 0 then pure true else waitForReset polls

def allocQueuePages : Driver QueuePages := do
  let desc ← allocFrame
  let avail ← allocFrame
  let used ← allocFrame
  pure ⟨desc*pageSize, avail*pageSize, used*pageSize, 0⟩

/-- `alloc_packet_buffers` from index `i` on. -/
def allocPacketBuffers : Nat → Nat → (Nat → VirtioBuffer) → Driver (Nat → VirtioBuffer)
  | 0, _, buffers => pure buffers
  | left+1, i, buffers => do
    let ppn ← allocFrame
    allocPacketBuffers left (i+1) (Function.update buffers i ⟨ppn*pageSize, false, 0⟩)

/-- The pages of a queue the device has enabled, none if it is too small. -/
def setupVirtqueue (notifyBase : UInt64) (notifyMultiplier : UInt32) (queueIndex : UInt16) :
    Driver (Option QueuePages) := do
  store .queueSelect queueIndex.toUInt64
  let maxSize ← load .queueSize
  if maxSize.toUInt16.toNat < virtioNetQueueSize then pure none
  else
    let pages ← allocQueuePages
    store .queueSize 8
    store .queueDesc (UInt64.ofNat pages.descPa)
    store .queueDriver (UInt64.ofNat pages.availPa)
    store .queueDevice (UInt64.ofNat pages.usedPa)
    let notifyOff ← load .queueNotifyOff
    store .queueEnable 1
    let offset := notifyOff.toUInt16.toUInt32 * notifyMultiplier
    pure (some { pages with notify := notifyBase + offset.toUInt64 })

def notifyQueue (pages : QueuePages) (queueIndex : UInt16) : Driver Unit :=
  if pages.notify = 0 then pure () else ask (.notify pages.notify queueIndex)

def wantedFeatures (offered : UInt64) : UInt64 :=
  let wanted := virtioFVersion1
  let wanted := if offered &&& virtioNetFMac ≠ 0 then wanted ||| virtioNetFMac else wanted
  if offered &&& virtioNetFStatus ≠ 0 then wanted ||| virtioNetFStatus else wanted

/-- From `read_device_features` to the check of `FEATURES_OK`: the features negotiated,
none after a failure. -/
def negotiateFeatures : Driver (Option UInt64) := do
  let offered ← readDeviceFeatures
  if offered &&& virtioFVersion1 = 0 then
    store .deviceStatus statusFailed.toUInt64
    pure none
  else
    let wanted := wantedFeatures offered
    writeDriverFeatures wanted
    addDeviceStatus statusFeaturesOk
    let status ← load .deviceStatus
    if status.toUInt8 &&& statusFeaturesOk = 0 then
      store .deviceStatus statusFailed.toUInt64
      pure none
    else pure (some wanted)

/-- The loop over `g_hw.mac`. -/
def readMac : Nat → List UInt8 → Driver (List UInt8)
  | 0, mac => pure mac
  | left+1, mac => do
    let byte ← ask (.loadDevice mac.length)
    readMac left (mac ++ [byte])

/-- The two calls of `setup_virtqueue`; the globals hold what has been set up. -/
def setupQueues (notifyBase : UInt64) (notifyMultiplier : UInt32) (g : NetGlobals) :
    Driver (Bool × NetGlobals) := do
  match ← setupVirtqueue notifyBase notifyMultiplier virtioNetRxQueue with
  | none =>
    store .deviceStatus statusFailed.toUInt64
    pure (false, g)
  | some rxPages =>
    let g := { g with hw := { g.hw with rxPages := rxPages } }
    match ← setupVirtqueue notifyBase notifyMultiplier virtioNetTxQueue with
    | none =>
      store .deviceStatus statusFailed.toUInt64
      pure (false, g)
    | some txPages => pure (true, { g with hw := { g.hw with txPages := txPages } })

/-- The end of `virtio_net_init_pci`: the rings are filled and the device goes live. -/
def goLive (g : NetGlobals) : Driver (Bool × NetGlobals) := do
  let g := { g with hw := { g.hw with
    tx := initTxBuffersLocked g.hw.tx
    rx := initRxBuffersLocked g.hw.rx } }
  notifyQueue g.hw.rxPages virtioNetRxQueue
  addDeviceStatus statusDriverOk
  let _ ← load .numQueues
  pure (true, { g with hw := { g.hw with ready := true }, backend := .virtio })

/-- From the packet buffers on; `hw` is what is stored into `g_hw` on the way. -/
def startDevice (notifyBase : UInt64) (layout : VirtioPciLayout) (g : NetGlobals)
    (hw : VirtioHwState) : Driver (Bool × NetGlobals) := do
  let rxBuffers ← allocPacketBuffers virtioNetQueueSize 0 g.hw.rx.buffers
  let txBuffers ← allocPacketBuffers virtioNetQueueSize 0 g.hw.tx.buffers
  let g := { g with hw := { g.hw with
    rx := { g.hw.rx with buffers := rxBuffers }
    tx := { g.hw.tx with buffers := txBuffers } } }
  let (ok, g) ← setupQueues notifyBase layout.notifyMultiplier g
  if ok = false then pure (false, g)
  else goLive { g with hw := { g.hw with
    pci := hw.pci
    layout := hw.layout
    common := hw.common
    deviceCfg := hw.deviceCfg
    features := hw.features } }

/-- From the reset on, once the regions are mapped. -/
def initDevice (fn : PciFunction) (layout : VirtioPciLayout) (common notifyBase deviceCfg : UInt64)
    (g : NetGlobals) : Driver (Bool × NetGlobals) := do
  store .deviceStatus 0
  if (← waitForReset resetPolls) = false then pure (false, g)
  else
    addDeviceStatus statusAcknowledge
    addDeviceStatus statusDriver
    match ← negotiateFeatures with
    | none => pure (false, g)
    | some wanted =>
      let mac ← if wanted &&& virtioNetFMac ≠ 0 ∧ deviceCfg ≠ 0 then readMac 6 []
        else pure g.hw.mac
      let hw := { g.hw with
        pci := fn
        layout := layout
        common := common
        deviceCfg := deviceCfg
        features := wanted }
      startDevice notifyBase layout { g with hw := { g.hw with mac := mac } } hw

/-- `virtio_net_init_pci` over the memory there is. -/
def virtioNetInitPci (mem : Nat → UInt8) (g : NetGlobals) : Driver (Bool × NetGlobals) :=
  if g.hw.ready then pure (true, { g with backend := .virtio })
  else
    let g := { g with hw := noHw mem }
    match pciFindVirtioNet g.config with
    | none => pure (false, g)
    | some fn =>
      let g := { g with config := pciEnableMmioAndBusMastering g.config fn }
      let parsed := parseVirtioPciLayout g.config fn
      if parsed.2 = false then pure (false, g)
      else do
        let layout := parsed.1
        let common ← mapPciRegion g.config fn layout.common
        let notifyBase ← mapPciRegion g.config fn layout.notify
        let deviceCfg ← mapPciRegion g.config fn layout.device
        if common = 0 ∨ notifyBase = 0 then pure (false, g)
        else initDevice fn layout common notifyBase deviceCfg g

end NetKernel.BringUp
