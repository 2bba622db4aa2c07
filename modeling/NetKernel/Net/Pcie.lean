import Mathlib.Data.List.Range
import Mathlib.Logic.Function.Basic
import NetKernel.Lib.Words

/-! Legacy configuration space: the address written to port `0xCF8`, the sized reads, the
scan for a device, base address registers and the command register. -/
namespace NetKernel.Pcie
open Function Words

abbrev pciVendorNotPresent : UInt16 := 0xFFFF
abbrev pciMaxBuses : Nat := 256
abbrev pciMaxDevices : Nat := 32
abbrev pciMaxFunctions : Nat := 8
abbrev pciRegVendorDevice : UInt8 := 0x00
abbrev pciRegCommandStatus : UInt8 := 0x04
abbrev pciRegClassRev : UInt8 := 0x08
abbrev pciRegHeaderType : UInt8 := 0x0C
abbrev pciRegBar0 : UInt8 := 0x10
abbrev pciRegCapPtr : UInt8 := 0x34
abbrev pciHeaderTypeMultifunction : UInt8 := 0x80
abbrev pciCommandMemorySpace : UInt16 := 0x2
abbrev pciCommandBusMaster : UInt16 := 0x4

/-- The value for `CONFIG_ADDRESS`. -/
def pciConfigAddress (bus device function offset : UInt8) : UInt32 :=
  (((((1 : UInt32) <<< 31) ||| (bus.toUInt32 <<< 16)) ||| ((device &&& 0x1F).toUInt32 <<< 11)) |||
    ((function &&& 0x07).toUInt32 <<< 8)) ||| (offset &&& 0xFC).toUInt32

/-- The registers behind `CONFIG_DATA` by the address selected. `accepts` is what the
register at an address holds after a store, from what it held and what was stored. -/
structure ConfigSpace where
  reg : UInt32 → UInt32
  accepts : UInt32 → UInt32 → UInt32 → UInt32

def pciConfigRead32 (c : ConfigSpace) (bus device function offset : UInt8) : UInt32 :=
  c.reg (pciConfigAddress bus device function offset)

def pciConfigWrite32 (c : ConfigSpace) (bus device function offset : UInt8) (value : UInt32) :
    ConfigSpace :=
  let address := pciConfigAddress bus device function offset
  { c with reg := update c.reg address (c.accepts address (c.reg address) value) }

def pciConfigRead8 (c : ConfigSpace) (bus device function offset : UInt8) : UInt8 :=
  (pciConfigRead32 c bus device function offset >>> ((offset &&& 3) * 8).toUInt32).toUInt8

structure PciFunction where
  bus : UInt8
  device : UInt8
  function : UInt8
  vendorId : UInt16
  deviceId : UInt16
  classCode : UInt8
  subclass : UInt8
  progIf : UInt8
  revisionId : UInt8
  headerType : UInt8
deriving DecidableEq, Repr

/-- `read_function`; none stands for `false`. -/
def readFunction (c : ConfigSpace) (bus dev func : UInt8) : Option PciFunction :=
  let idReg := pciConfigRead32 c bus dev func pciRegVendorDevice
  let vendorId := (idReg &&& 0xffff).toUInt16
  if vendorId = pciVendorNotPresent then none else
  let deviceId := (idReg >>> 16).toUInt16
  let classReg := pciConfigRead32 c bus dev func pciRegClassRev
  let revisionId := (classReg &&& 0xff).toUInt8
  let progIf := ((classReg >>> 8) &&& 0xff).toUInt8
  let subclass := ((classReg >>> 16) &&& 0xff).toUInt8
  let classCode := ((classReg >>> 24) &&& 0xff).toUInt8
  let headerDword := pciConfigRead32 c bus dev func pciRegHeaderType
  let headerType := ((headerDword >>> 16) &&& 0x7F).toUInt8
  some ⟨bus, dev, func, vendorId, deviceId, classCode, subclass, progIf, revisionId, headerType⟩

/-- `raw_header_type & PCI_HEADER_TYPE_MULTIFUNCTION` of function 0. -/
def multifunction (c : ConfigSpace) (bus device : UInt8) : Bool :=
  let headerDword := pciConfigRead32 c bus device 0 pciRegHeaderType
  let rawHeaderType := ((headerDword >>> 16) &&& 0xff).toUInt8
  rawHeaderType &&& pciHeaderTypeMultifunction != 0

def PciFunction.named (vendorId deviceId : UInt16) (info : PciFunction) : Bool :=
  info.vendorId == vendorId && info.deviceId == deviceId

/-- The body of the two outer loops of `pci_find_device`. -/
def findInDevice (c : ConfigSpace) (vendorId deviceId : UInt16) (bus device : UInt8) :
    Option PciFunction :=
  match readFunction c bus device 0 with
  | none => none
  | some info =>
    if info.named vendorId deviceId then some info
    else if multifunction c bus device then
      (List.range' 1 (pciMaxFunctions-1)).findSome? fun function =>
        (readFunction c bus device (UInt8.ofNat function)).filter (·.named vendorId deviceId)
    else none

def pciFindDevice (c : ConfigSpace) (vendorId deviceId : UInt16) : Option PciFunction :=
  (List.range pciMaxBuses).findSome? fun bus =>
    (List.range pciMaxDevices).findSome? fun device =>
      findInDevice c vendorId deviceId (UInt8.ofNat bus) (UInt8.ofNat device)

def pciFindVirtioNet (c : ConfigSpace) : Option PciFunction := pciFindDevice c 0x1AF4 0x1041

def pciReadBar (c : ConfigSpace) (fn : PciFunction) (barIndex : UInt8) : UInt64 :=
  if 6 ≤ barIndex then 0 else
  let offset := pciRegBar0 + barIndex * 4
  let bar := pciConfigRead32 c fn.bus fn.device fn.function offset
  if bar &&& 0x1 ≠ 0 then (bar &&& ~~~0x3).toUInt64 else
  let base := (bar &&& ~~~0xF).toUInt64
  if (bar >>> 1) &&& 0x3 = 0x2 ∧ barIndex < 5 then
    let high := pciConfigRead32 c fn.bus fn.device fn.function (offset + 4)
    base ||| (high.toUInt64 <<< 32)
  else base

/-- The command register with memory space and bus mastering on, the status as it was. -/
def commandValue (commandStatus : UInt32) : UInt32 :=
  let command := (commandStatus &&& 0xffff).toUInt16
  let command := (command ||| pciCommandMemorySpace) ||| pciCommandBusMaster
  (commandStatus &&& 0xffff0000) ||| command.toUInt32

def pciEnableMmioAndBusMastering (c : ConfigSpace) (fn : PciFunction) : ConfigSpace :=
  let commandStatus := pciConfigRead32 c fn.bus fn.device fn.function pciRegCommandStatus
  pciConfigWrite32 c fn.bus fn.device fn.function pciRegCommandStatus (commandValue commandStatus)

/-! The listing of bus 0. -/

/-- `bus_visited`, by byte. -/
abbrev BusVisited := Nat → UInt8

def markBusVisited (visited : BusVisited) (bus : UInt8) : BusVisited :=
  update visited (bus.toNat/8) (visited (bus.toNat/8) ||| (1 <<< (bus % 8)))

def isBusVisited (visited : BusVisited) (bus : UInt8) : Bool :=
  visited (bus.toNat/8) &&& (1 <<< (bus % 8)) != 0

def clearBusVisited : BusVisited := fun _ => 0

/-- What `parse_device_legacy` prints for function 0 of a device and for the others. -/
def parseDevice (c : ConfigSpace) (bus device : UInt8) : List PciFunction :=
  match readFunction c bus device 0 with
  | none => []
  | some info =>
    info :: if multifunction c bus device then
      (List.range' 1 (pciMaxFunctions-1)).filterMap fun function =>
        readFunction c bus device (UInt8.ofNat function)
    else []

/-- The lines `enumerate_bus` prints, and the bitmap after it. -/
def enumerateBus (c : ConfigSpace) (visited : BusVisited) (bus : UInt8) :
    List PciFunction × BusVisited :=
  if isBusVisited visited bus then ([], visited)
  else ((List.range pciMaxDevices).flatMap fun device => parseDevice c bus (UInt8.ofNat device),
    markBusVisited visited bus)

def enumPcie (c : ConfigSpace) : List PciFunction × BusVisited := enumerateBus c clearBusVisited 0

/-! Addresses. -/

variable {bus device function offset : UInt8}

theorem toNat_aligned (x : UInt8) : (x &&& 0xFC).toNat = 4*(x.toNat/4) := by
  have h : ∀ x : Fin 256, (UInt8.ofFin x &&& 0xFC).toNat = 4*(x.val/4) := by decide +kernel
  exact h x.toFin

theorem toNat_pciConfigAddress : (pciConfigAddress bus device function offset).toNat =
    2^31+2^16*bus.toNat+2^11*(device.toNat % 32)+2^8*(function.toNat % 8)+4*(offset.toNat / 4) := by
  have hbus := bus.toNat_lt
  have hoff := offset.toNat_lt
  have hd : (device &&& 0x1F).toNat = device.toNat % 32 := Nat.and_two_pow_sub_one_eq_mod _ 5
  have hf : (function &&& 0x07).toNat = function.toNat % 8 := Nat.and_two_pow_sub_one_eq_mod _ 3
  simp only [pciConfigAddress, UInt32.toNat_or, UInt32.toNat_shiftLeft, UInt8.toNat_toUInt32, hd, hf,
    toNat_aligned, Nat.shiftLeft_eq]
  change 2^31 ||| bus.toNat*2^16 % 2^32 ||| device.toNat % 32*2^11 % 2^32 |||
    function.toNat % 8*2^8 % 2^32 ||| 4*(offset.toNat/4) = _
  have h1 : 2^31 ||| bus.toNat*2^16 % 2^32 = 2^31+2^16*bus.toNat := by
    rw [or_pack 24 (by decide) (by omega)]
    omega
  have h2 : 2^31+2^16*bus.toNat ||| device.toNat % 32*2^11 % 2^32 =
      2^31+2^16*bus.toNat+2^11*(device.toNat % 32) := by
    rw [or_pack 16 (by omega) (by omega)]
    omega
  have h3 : 2^31+2^16*bus.toNat+2^11*(device.toNat % 32) ||| function.toNat % 8*2^8 % 2^32 =
      2^31+2^16*bus.toNat+2^11*(device.toNat % 32)+2^8*(function.toNat % 8) := by
    rw [or_pack 11 (by omega) (by omega)]
    omega
  rw [h1, h2, h3, or_pack 8 (by omega) (by omega)]

/-! The registers of a function, and what they say of it. -/

/-- The dword at an offset of the configuration space of a function. -/
def ConfigSpace.dword (c : ConfigSpace) (bus device function : UInt8) (offset : Nat) : Nat :=
  (c.reg (UInt32.ofNat
    (2^31+2^16*bus.toNat+2^11*device.toNat+2^8*function.toNat+offset))).toNat

/-- A vendor id other than `0xFFFF` is in the low half of dword 0. -/
def ConfigSpace.Answers (c : ConfigSpace) (bus device function : UInt8) : Prop :=
  c.dword bus device function 0 % 2^16 ≠ 0xFFFF

/-- Bit 7 of the header type, the third byte of dword 12. -/
def ConfigSpace.Multifunction (c : ConfigSpace) (bus device : UInt8) : Prop :=
  (c.dword bus device 0 12).testBit 23

/-- The ids, the class and the header type are those in the registers. -/
structure ConfigSpace.Describes (c : ConfigSpace) (info : PciFunction) : Prop where
  ids : c.dword info.bus info.device info.function 0 =
    2^16*info.deviceId.toNat+info.vendorId.toNat
  classes : c.dword info.bus info.device info.function 8 = 2^24*info.classCode.toNat+
    2^16*info.subclass.toNat+2^8*info.progIf.toNat+info.revisionId.toNat
  header : c.dword info.bus info.device info.function 12 / 2^16 % 2^7 = info.headerType.toNat

/-- A function the machine shows: a function other than 0 shows only behind a function 0
whose header says so. -/
structure Present (c : ConfigSpace) (info : PciFunction) : Prop where
  device : info.device.toNat < 32
  function : info.function.toNat < 8
  answers : c.Answers info.bus info.device info.function
  describes : c.Describes info
  behind : info.function ≠ 0 → c.Answers info.bus info.device 0 ∧
    c.Multifunction info.bus info.device

/-! The functions of a machine. -/

variable {c : ConfigSpace} {info other : PciFunction} {vendorId deviceId : UInt16}

theorem pciConfigRead32_dword (hd : device.toNat < 32) (hf : function.toNat < 8)
    (ho : offset.toNat % 4 = 0) : (pciConfigRead32 c bus device function offset).toNat =
      c.dword bus device function offset.toNat := by
  have haddr : pciConfigAddress bus device function offset = UInt32.ofNat
      (2^31+2^16*bus.toNat+2^11*device.toNat+2^8*function.toNat+offset.toNat) := by
    have hbus := bus.toNat_lt
    have hoff := offset.toNat_lt
    rw [← UInt32.toNat_inj, toNat_pciConfigAddress, UInt32.toNat_ofNat']
    omega
  rw [pciConfigRead32, haddr]
  rfl

theorem toNat_byte (x : UInt32) (k : UInt32) (hk : k.toNat < 32) :
    ((x >>> k) &&& 0xff).toUInt8.toNat = x.toNat / 2^k.toNat % 2^8 := by
  rw [UInt32.toNat_toUInt8, UInt32.toNat_and, UInt32.toNat_shiftRight, Nat.mod_eq_of_lt hk,
    Nat.shiftRight_eq_div_pow]
  change (_ &&& (2^8-1)) % 2^8 = _
  rw [Nat.and_two_pow_sub_one_eq_mod, Nat.mod_mod]

theorem toNat_halves (x : UInt32) : (x &&& 0xffff).toUInt16.toNat = x.toNat % 2^16 ∧
    (x >>> 16).toUInt16.toNat = x.toNat / 2^16 := by
  have hx := x.toNat_lt
  constructor
  · rw [UInt32.toNat_toUInt16, UInt32.toNat_and]
    change (_ &&& (2^16-1)) % 2^16 = _
    rw [Nat.and_two_pow_sub_one_eq_mod, Nat.mod_mod]
  · rw [UInt32.toNat_toUInt16, UInt32.toNat_shiftRight, Nat.shiftRight_eq_div_pow]
    change x.toNat / 2^16 % 2^16 = _
    omega

theorem toNat_headerType (x : UInt32) :
    ((x >>> 16) &&& 0x7F).toUInt8.toNat = x.toNat / 2^16 % 2^7 := by
  rw [UInt32.toNat_toUInt8, UInt32.toNat_and, UInt32.toNat_shiftRight, Nat.shiftRight_eq_div_pow]
  change (x.toNat / 2^16 &&& (2^7-1)) % 2^8 = _
  rw [Nat.and_two_pow_sub_one_eq_mod]
  omega

/-- `read_function` says what the registers say, and nothing where no vendor answers. -/
theorem readFunction_iff (hd : device.toNat < 32) (hf : function.toNat < 8) :
    readFunction c bus device function = some info ↔ c.Answers bus device function ∧
      c.Describes info ∧ info.bus = bus ∧ info.device = device ∧ info.function = function := by
  have hid : (pciConfigRead32 c bus device function pciRegVendorDevice).toNat =
      c.dword bus device function 0 := pciConfigRead32_dword hd hf rfl
  have hclass : (pciConfigRead32 c bus device function pciRegClassRev).toNat =
      c.dword bus device function 8 := pciConfigRead32_dword hd hf rfl
  have hheader : (pciConfigRead32 c bus device function pciRegHeaderType).toNat =
      c.dword bus device function 12 := pciConfigRead32_dword hd hf rfl
  unfold readFunction
  dsimp only
  generalize pciConfigRead32 c bus device function pciRegVendorDevice = ids at *
  generalize pciConfigRead32 c bus device function pciRegClassRev = classes at *
  generalize pciConfigRead32 c bus device function pciRegHeaderType = header at *
  have hvendor : (ids &&& 0xffff).toUInt16 = pciVendorNotPresent ↔
      ¬c.Answers bus device function := by
    rw [← UInt16.toNat_inj, (toNat_halves ids).1, ConfigSpace.Answers, ← hid, not_not]
    rfl
  by_cases hnone : (ids &&& 0xffff).toUInt16 = pciVendorNotPresent
  · rw [if_pos hnone]
    exact ⟨nofun, fun h => absurd h.1 (hvendor.mp hnone)⟩
  rw [if_neg hnone, and_iff_right (not_not.mp fun h => hnone (hvendor.mpr h))]
  have hlt := classes.toNat_lt
  obtain ⟨hlow,hhigh⟩ := toNat_halves ids
  have h0 : (classes &&& 0xff).toUInt8.toNat = classes.toNat % 2^8 := by
    rw [UInt32.toNat_toUInt8, UInt32.toNat_and]
    change (_ &&& (2^8-1)) % 2^8 = _
    rw [Nat.and_two_pow_sub_one_eq_mod, Nat.mod_mod]
  have h8 := toNat_byte classes 8 (by decide)
  have h16 := toNat_byte classes 16 (by decide)
  have h24 := toNat_byte classes 24 (by decide)
  have htype := toNat_headerType header
  constructor
  · intro h
    cases h
    refine ⟨⟨?_, ?_, ?_⟩, rfl, rfl, rfl⟩ <;> dsimp only
    · rw [hlow, hhigh, ← hid]
      omega
    · rw [h0, h8, h16, h24, ← hclass]
      change classes.toNat = 2^24*(classes.toNat / 2^24 % 2^8)+2^16*(classes.toNat / 2^16 % 2^8)+
        2^8*(classes.toNat / 2^8 % 2^8)+classes.toNat % 2^8
      omega
    · rw [htype, ← hheader]
  · rintro ⟨⟨hids,hclasses,htypes⟩,rfl,rfl,rfl⟩
    rw [← hid] at hids
    rw [← hclass] at hclasses
    rw [← hheader] at htypes
    have hv := info.vendorId.toNat_lt
    have hc := info.classCode.toNat_lt
    have hs := info.subclass.toNat_lt
    have hp := info.progIf.toNat_lt
    have hr := info.revisionId.toNat_lt
    change _ = classes.toNat / 2^8 % 2^8 at h8
    change _ = classes.toNat / 2^16 % 2^8 at h16
    change _ = classes.toNat / 2^24 % 2^8 at h24
    refine congrArg some ?_
    obtain ⟨bus,device,function,vendorId,deviceId,classCode,subclass,progIf,revisionId,headerType⟩ :=
      info
    dsimp only at *
    rw [PciFunction.mk.injEq]
    simp only [← UInt16.toNat_inj, ← UInt8.toNat_inj, true_and]
    omega

theorem answers_iff (hd : device.toNat < 32) (hf : function.toNat < 8) :
    (readFunction c bus device function).isSome = true ↔ c.Answers bus device function := by
  constructor
  · intro h
    obtain ⟨info,hread⟩ := Option.isSome_iff_exists.mp h
    exact ((readFunction_iff hd hf).mp hread).1
  · intro h
    by_contra hnone
    have hvendor : (pciConfigRead32 c bus device function 0 &&& 0xffff).toUInt16 =
        pciVendorNotPresent := by
      by_contra hne
      rw [readFunction, if_neg hne] at hnone
      exact hnone rfl
    rw [← UInt16.toNat_inj, (toNat_halves _).1, pciConfigRead32_dword hd hf rfl] at hvendor
    exact h hvendor

theorem multifunction_iff (hd : device.toNat < 32) :
    multifunction c bus device = true ↔ c.Multifunction bus device := by
  have hbit : ∀ x : Fin 256, (UInt8.ofFin x &&& pciHeaderTypeMultifunction != 0) =
      x.val.testBit 7 := by
    decide +kernel
  have hheader : (pciConfigRead32 c bus device 0 12).toNat = c.dword bus device 0 12 :=
    pciConfigRead32_dword hd (by decide) rfl
  have hbyte := toNat_byte (pciConfigRead32 c bus device 0 12) 16 (by decide)
  rw [hheader] at hbyte
  change _ = c.dword bus device 0 12 / 2^16 % 2^8 at hbyte
  rw [multifunction, ConfigSpace.Multifunction]
  have hthis := hbit (((pciConfigRead32 c bus device 0 12) >>> 16) &&& 0xff).toUInt8.toFin
  rw [show ∀ x : UInt8, UInt8.ofFin x.toFin = x from fun _ => rfl] at hthis
  rw [hthis]
  change (((pciConfigRead32 c bus device 0 12) >>> 16) &&& 0xff).toUInt8.toNat.testBit 7 = true ↔ _
  rw [hbyte, Nat.testBit_mod_two_pow, Nat.testBit_div_two_pow]
  rfl

/-- Where a function stands in the order of the scan: the address of its dword 0. -/
def PciFunction.address (info : PciFunction) : Nat :=
  2^31+2^16*info.bus.toNat+2^11*info.device.toNat+2^8*info.function.toNat

/-- The functions of a bus in the order of the scan. -/
def functionsOn (c : ConfigSpace) (bus : UInt8) : List PciFunction :=
  (List.range pciMaxDevices).flatMap fun device => parseDevice c bus (UInt8.ofNat device)

def functions (c : ConfigSpace) : List PciFunction :=
  (List.range pciMaxBuses).flatMap fun bus => functionsOn c (UInt8.ofNat bus)

theorem toNat_ofNat {k : Nat} (hk : k < 256) : (UInt8.ofNat k).toNat = k :=
  (UInt8.toNat_ofNat' ..).trans (Nat.mod_eq_of_lt hk)

theorem mem_parseDevice (hd : device.toNat < 32) : info ∈ parseDevice c bus device ↔
    Present c info ∧ info.bus = bus ∧ info.device = device := by
  have hzero : (0 : UInt8).toNat < 8 := by decide
  unfold parseDevice
  constructor
  · intro h
    cases h0 : readFunction c bus device 0 with
    | none =>
      rw [h0] at h
      cases h
    | some first =>
      rw [h0] at h
      obtain ⟨hans,hdesc,hb,hdev,hf⟩ := (readFunction_iff hd hzero).mp h0
      obtain rfl | h := List.mem_cons.mp h
      · exact ⟨⟨hdev ▸ hd, hf ▸ hzero, by rwa [hb, hdev, hf], hdesc, fun hne => absurd hf hne⟩,
          hb, hdev⟩
      · split at h
        · rename_i hm
          obtain ⟨k,hk,hread⟩ := List.mem_filterMap.mp h
          obtain ⟨-,hk⟩ := List.mem_range'_1.mp hk
          change k < 1+(8-1) at hk
          have hlt : (UInt8.ofNat k).toNat < 8 := by
            rw [toNat_ofNat (by omega)]
            omega
          obtain ⟨hansk,hdesck,hbk,hdevk,hfk⟩ := (readFunction_iff hd hlt).mp hread
          refine ⟨⟨hdevk ▸ hd, hfk ▸ hlt, by rwa [hbk, hdevk, hfk], hdesck, fun _ => ?_⟩, hbk,
            hdevk⟩
          rw [hbk, hdevk]
          exact ⟨hans, (multifunction_iff hd).mp hm⟩
        · cases h
  · rintro ⟨⟨-,hf,hans,hdesc,hbehind⟩,rfl,rfl⟩
    have hread := (readFunction_iff hd hf).mpr ⟨hans, hdesc, rfl, rfl, rfl⟩
    by_cases h0 : info.function = 0
    · rw [h0] at hread
      rw [hread]
      exact List.mem_cons_self
    · obtain ⟨hans0,hm⟩ := hbehind h0
      obtain ⟨first,hfirst⟩ := Option.isSome_iff_exists.mp ((answers_iff hd hzero).mpr hans0)
      rw [hfirst]
      refine List.mem_cons_of_mem _ ?_
      rw [if_pos ((multifunction_iff hd).mpr hm)]
      refine List.mem_filterMap.mpr ⟨info.function.toNat, List.mem_range'_1.mpr ?_, ?_⟩
      · have : info.function.toNat ≠ 0 := fun h => h0 (UInt8.toNat_inj.mp h)
        change 1 ≤ info.function.toNat ∧ info.function.toNat < 1+(8-1)
        omega
      · rwa [UInt8.ofNat_toNat]

theorem mem_functionsOn : info ∈ functionsOn c bus ↔ Present c info ∧ info.bus = bus := by
  have hlt {k : Nat} (hk : k < pciMaxDevices) : (UInt8.ofNat k).toNat < 32 := by
    change k < 32 at hk
    rw [toNat_ofNat (by omega)]
    exact hk
  simp only [functionsOn, List.mem_flatMap, List.mem_range]
  constructor
  · rintro ⟨k,hk,hmem⟩
    obtain ⟨hp,hb,-⟩ := (mem_parseDevice (hlt hk)).mp hmem
    exact ⟨hp, hb⟩
  · rintro ⟨hp,hb⟩
    refine ⟨info.device.toNat, hp.device, ?_⟩
    rw [UInt8.ofNat_toNat, mem_parseDevice hp.device]
    exact ⟨hp, hb, rfl⟩

theorem mem_functions : info ∈ functions c ↔ Present c info := by
  simp only [functions, List.mem_flatMap, List.mem_range, mem_functionsOn]
  constructor
  · rintro ⟨_,_,h,_⟩
    exact h
  · intro h
    exact ⟨info.bus.toNat, info.bus.toNat_lt, h, (UInt8.ofNat_toNat).symm⟩

theorem sorted_parseDevice (hd : device.toNat < 32) :
    (parseDevice c bus device).Pairwise (·.address < ·.address) := by
  have hslot {k : Nat} {later : PciFunction} (hk : k < 8)
      (hread : readFunction c bus device (UInt8.ofNat k) = some later) :
      later.address = 2^31+2^16*bus.toNat+2^11*device.toNat+2^8*k := by
    have hkeep := toNat_ofNat (k := k) (by omega)
    obtain ⟨-,-,rfl,rfl,hf⟩ := (readFunction_iff hd (by omega)).mp hread
    rw [PciFunction.address, hf, hkeep]
  unfold parseDevice
  cases h0 : readFunction c bus device 0 with
  | none => exact .nil
  | some first =>
    have hfirst := hslot (k := 0) (by decide) h0
    dsimp only
    split
    · refine List.pairwise_cons.mpr ⟨fun later hl => ?_, List.pairwise_filterMap.mpr ?_⟩
      · obtain ⟨k,hk,hread⟩ := List.mem_filterMap.mp hl
        obtain ⟨hlo,hhi⟩ := List.mem_range'_1.mp hk
        rw [hfirst, hslot hhi hread]
        omega
      · refine (List.pairwise_lt_range' 1).imp_of_mem fun {j k} hj hk hlt x hx y hy => ?_
        rw [hslot (List.mem_range'_1.mp hj).2 hx, hslot (List.mem_range'_1.mp hk).2 hy]
        omega
    · exact List.pairwise_singleton ..

theorem sorted_functions : (functions c).Pairwise (·.address < ·.address) := by
  have hdev {k : Nat} (hk : k < pciMaxDevices) : (UInt8.ofNat k).toNat = k ∧ k < 32 := by
    change k < 32 at hk
    exact ⟨toNat_ofNat (by omega), hk⟩
  refine List.pairwise_flatMap.mpr ⟨fun bus _ => List.pairwise_flatMap.mpr ⟨fun k hk => ?_, ?_⟩, ?_⟩
  · obtain ⟨heq,hlt⟩ := hdev (List.mem_range.mp hk)
    exact sorted_parseDevice (heq.trans_lt hlt)
  · refine List.pairwise_lt_range.imp_of_mem fun {j k} hj hk hlt x hx y hy => ?_
    obtain ⟨hj,hj'⟩ := hdev (List.mem_range.mp hj)
    obtain ⟨hk,hk'⟩ := hdev (List.mem_range.mp hk)
    obtain ⟨hpx,hbx,hdx⟩ := (mem_parseDevice (hj.trans_lt hj')).mp hx
    obtain ⟨hpy,hby,hdy⟩ := (mem_parseDevice (hk.trans_lt hk')).mp hy
    have hfx := hpx.function
    rw [PciFunction.address, PciFunction.address, hbx, hby, hdx, hdy, hj, hk]
    omega
  · refine List.pairwise_lt_range.imp_of_mem fun {j k} hj hk hlt x hx y hy => ?_
    obtain ⟨hpx,hbx⟩ := mem_functionsOn.mp hx
    obtain ⟨hpy,hby⟩ := mem_functionsOn.mp hy
    have hdx := hpx.device
    have hfx := hpx.function
    rw [PciFunction.address, PciFunction.address, hbx, hby, toNat_ofNat (List.mem_range.mp hj),
      toNat_ofNat (List.mem_range.mp hk)]
    omega

theorem findSome?_filter {α β : Type*} (f : α → Option β) (p : β → Bool) (l : List α) :
    (l.findSome? fun a => (f a).filter p) = (l.filterMap f).find? p := by
  induction l with
  | nil => rfl
  | cons a l ih =>
    rw [List.findSome?_cons, List.filterMap_cons]
    cases f a with
    | none => exact ih
    | some b =>
      dsimp only
      rw [List.find?_cons, Option.filter_some]
      cases p b with
      | true => rfl
      | false => exact ih

theorem findInDevice_eq : findInDevice c vendorId deviceId bus device =
    (parseDevice c bus device).find? (·.named vendorId deviceId) := by
  unfold findInDevice parseDevice
  cases readFunction c bus device 0 with
  | none => rfl
  | some info =>
    dsimp only
    rw [List.find?_cons]
    cases info.named vendorId deviceId with
    | true => rfl
    | false =>
      by_cases hm : multifunction c bus device = true
      · rw [if_pos hm, if_pos hm]
        exact findSome?_filter _ _ _
      · rw [if_neg hm, if_neg hm]
        rfl

theorem pciFindDevice_eq :
    pciFindDevice c vendorId deviceId = (functions c).find? (·.named vendorId deviceId) := by
  simp only [pciFindDevice, functions, functionsOn, List.find?_flatMap, findInDevice_eq]

theorem find?_eq_some_iff_least {α : Type*} {l : List α} {key : α → Nat} {p : α → Bool} {a : α}
    (hl : l.Pairwise (key · < key ·)) :
    l.find? p = some a ↔ a ∈ l ∧ p a = true ∧ ∀ b ∈ l, p b = true → key a ≤ key b := by
  induction l with
  | nil => simp
  | cons x l ih =>
    obtain ⟨hx,hl⟩ := List.pairwise_cons.mp hl
    rw [List.find?_cons]
    cases hp : p x with
    | true =>
      rw [Option.some_inj]
      constructor
      · rintro rfl
        refine ⟨List.mem_cons_self, hp, fun b hb _ => ?_⟩
        obtain rfl | hb := List.mem_cons.mp hb
        · exact Nat.le_refl _
        · exact Nat.le_of_lt (hx b hb)
      · rintro ⟨ha,-,hle⟩
        obtain rfl | ha := List.mem_cons.mp ha
        · rfl
        · exact absurd (hx a ha) (Nat.not_lt.mpr (hle x List.mem_cons_self hp))
    | false =>
      have hne {b : α} (hb : p b = true) : b ≠ x := fun h => by rw [h, hp] at hb; cases hb
      rw [ih hl]
      constructor
      · rintro ⟨ha,hpa,hle⟩
        exact ⟨List.mem_cons_of_mem _ ha, hpa, fun b hb hpb =>
          hle b ((List.mem_cons.mp hb).resolve_left (hne hpb)) hpb⟩
      · rintro ⟨ha,hpa,hle⟩
        exact ⟨(List.mem_cons.mp ha).resolve_left (hne hpa), hpa, fun b hb hpb =>
          hle b (List.mem_cons_of_mem _ hb) hpb⟩

theorem functionsOn_zero : (enumPcie c).1 = functionsOn c 0 := by
  unfold enumPcie enumerateBus
  rw [if_neg (by decide)]
  rfl

/-- `pci_find_device` finds the named function with the least configuration address, and
`enum_pcie` lists the functions of bus 0, none twice. -/
theorem pci_scan (c : ConfigSpace) (vendorId deviceId : UInt16) :
    (∀ info, pciFindDevice c vendorId deviceId = some info ↔
      Present c info ∧ info.named vendorId deviceId = true ∧
        ∀ other, Present c other → other.named vendorId deviceId = true →
          info.address ≤ other.address) ∧
    (∀ info, info ∈ (enumPcie c).1 ↔ Present c info ∧ info.bus = 0) ∧
    (enumPcie c).1.Pairwise (·.address < ·.address) := by
  refine ⟨fun info => ?_, fun info => ?_, ?_⟩
  · rw [pciFindDevice_eq, find?_eq_some_iff_least sorted_functions]
    simp only [mem_functions]
  · rw [functionsOn_zero, mem_functionsOn]
  · rw [functionsOn_zero]
    have hall := List.pairwise_flatMap.mp (sorted_functions (c := c))
    exact hall.1 0 (List.mem_range.mpr (by decide))

end NetKernel.Pcie
