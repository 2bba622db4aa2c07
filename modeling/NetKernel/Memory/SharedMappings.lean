import NetKernel.Files.BlockIo
import NetKernel.Memory.AddressSpace
import NetKernel.Memory.Territory

/-! The mappings that all threads share: `mmap` of shared regions, the faults on their pages,
`map_mmio`, and the start and the end of threads, by any number of threads. A step is a section
under a lock, an allocation, a `load_page` or another call that no lock divides. -/
namespace NetKernel.SharedMappings
open Function Runs PageTables Teardown
open AddressSpaces (canonical)
open Blocks (BlockIo littleEndian)
open Frames (Ram DirectMap storeWord toPpn)
open Heaps (wrap sub64)
open Vmes (Vme Mappings findVme insertVme pageAlignUp pagesOf sharedBase sharedLimit)
open Territories (threadRoot)

/-- The boot loader's direct map, and the frame that `common_cr3` holds. -/
structure Boot extends DirectMap where
  aligned : hhdmOffset % 4096 = 0
  common : Nat

/-- Where a thread is: on its way through `init_thread`, in user mode, in the page fault handler,
or on its way through `fini_thread`. -/
inductive Pc (ν : Type*) where
  | unborn
  | created
  | copying
  | counting
  | user
  | checking (vaPage : Nat)
  | allocating (vme : Vme ν) (vaPage : Nat)
  | loading (vme : Vme ν) (vaPage frame : Nat)
  | mapping (vme : Vme ν) (vaPage frame : Nat)
  | closing
  | last
  | freeing
  | gone
deriving DecidableEq

/-- What has happened; the source keeps no record of it. -/
inductive Event where
  | alloc (frame : Nat)
  | install (va frame : Nat)
  | free (frame : Nat)
  | store (va i value : Nat)
  | fault (va : Nat)
  | region (va length : Nat)
  | window (va : Nat)
  | empty
deriving DecidableEq

/-- The `log` has the last event first. A thread that is gone has no root. -/
structure Kernel (ν : Type*) where
  ram : Ram
  stock : List Nat
  sharedVmes : List (Vme ν)
  rootsReady : Bool
  active : Nat
  made : Nat
  pc : Nat → Pc ν
  root : Nat → Option Nat
  log : List Event

/-- A flag bit 0 of `flags` is `MAP_SHARED`. Thread `none` is a core before its first thread. -/
inductive Action (ν : Type*) where
  | create (t : Nat)
  | mmap (t : Nat) (length : UInt64) (flags : Int32) (file : Option ν) (offset : UInt64)
  | fault (t : Nat) (cr2 errorCode : UInt64)
  | store (t : Nat) (va i value : Nat)
  | mapMmio (t : Option Nat) (pa length : UInt64)
  | exit (t : Nat)
  | run (t : Nat)

variable {ν : Type*}

/-- The words of a page that starts with some bytes and is zero after them. -/
def pageWords (xs : List UInt8) : Nat → Nat := fun i => littleEndian ((xs.drop (8*i)).take 8)

/-- `load_page`: what it leaves in the frame; `none` is the assertion. -/
def loadPage (io : ν → BlockIo) (vme : Vme ν) (vaPage : Nat) : Option (Nat → Nat) :=
  match vme.node with
  | none => some fun _ => 0
  | some node =>
    let pageIndex := sub64 vaPage vme.start / 4096
    let fileOffset := wrap (vme.offset+wrap (pageIndex*4096))
    let fileSize := (io node).sizeInBytes
    if fileSize ≤ fileOffset then some fun _ => 0
    else
      let bytesToRead := if fileSize < wrap (fileOffset+4096) then sub64 fileSize fileOffset else 4096
      ((io node).readExact (fileOffset % 2^32) (bytesToRead % 2^32)).map pageWords

section Definitions
variable (io : ν → BlockIo) (usable : Nat → Bool) (link : List Nat → Nat) (b : Boot)

/-- The round of `ensure_shared_roots` for a slot. -/
def ensureSlot (s : State) (slot : Nat) : Option State :=
  if present (s.1 b.common slot) then some s
  else
    match alloc s.1 s.2 with
    | none => none
    | some (child, ram, pool) =>
      some (storeWord ram b.common slot (makeEntry child true true), pool)

def ensureSharedRoots (ready : Bool) (s : State) : Option State :=
  if ready then some s
  else
    let firstSlot := (sharedBase b.hhdmOffset >>> 39) &&& 0x1FF
    let lastSlot := (sharedLimit >>> 39) &&& 0x1FF
    if present (s.1 b.common firstSlot) then
      (List.range' (firstSlot+1) (lastSlot-(firstSlot+1))).foldlM (ensureSlot b) s
    else none

/-- `pte && (*pte & PTE_PRESENT)` for the entry that `find_pte_in_root` returns. -/
def pagePresent (ram : Ram) (va : Nat) : Bool :=
  match findPte ram 3 b.common (va >>> 12) with
  | none => false
  | some (table, index) => present (ram table index)

/-- The round of `map_mmio` for a page. -/
def mapMmioPage (cr3 : Nat) (s : State) (curr : Nat) : Option State :=
  let va := wrap (curr+b.hhdmOffset)
  let ppn := toPpn (curr >>> 12)
  if canonical va then
    match map s.1 s.2 b.common 3 (va >>> 12) ppn false true with
    | none => none
    | some (ram, pool) =>
      if cr3 ≠ b.common then map ram pool cr3 3 (va >>> 12) ppn false true else some (ram, pool)
  else none

/-- The pages that `map_mmio` maps. -/
def mmioPages (pa length : Nat) : List Nat :=
  let length := if length = 0 then 4096 else length
  pagesOf (pa / 4096 * 4096) (pageAlignUp (wrap (pa+length)))

def mapMmio (cr3 pa length : Nat) (s : State) : Option State :=
  match (mmioPages pa length).foldlM (mapMmioPage b cr3) s with
  | none => none
  | some s => if canonical (wrap (pa+b.hhdmOffset)) then some s else none

def Kernel.goto (s : Kernel ν) (t : Nat) (pc : Pc ν) : Kernel ν :=
  { s with pc := update s.pc t pc }

def Kernel.hold (s : Kernel ν) (m : State) : Kernel ν := { s with ram := m.1, stock := m.2 }

def Kernel.note (s : Kernel ν) (e : Event) : Kernel ν := { s with log := e :: s.log }

/-- What a thread does next, when it is not in user mode. -/
def Kernel.run (s : Kernel ν) (t : Nat) : Option (Kernel ν) :=
  match s.pc t with
  | .unborn | .user | .gone => none
  | .created =>
    (ensureSharedRoots b s.rootsReady (s.ram, s.stock)).map fun m =>
      { s.hold m with rootsReady := true }.goto t .copying
  | .copying =>
    match alloc s.ram s.stock with
    | none => none
    | some (c, ram, pool) =>
      let ram := update ram c (threadRoot b.common c s.ram)
      some ({ s with ram := ram, stock := pool, root := update s.root t (some c) }.goto t .counting)
  | .counting => some ({ s with active := s.active+1 }.goto t .user)
  | .checking va =>
    match findVme s.sharedVmes va with
    -- no private region is there either, so the handler panics
    | none => none
    | some vme =>
      if pagePresent b s.ram va then some (s.goto t .user)
      else some ((s.note (.fault va)).goto t (.allocating vme va))
  | .allocating vme va =>
    (alloc s.ram s.stock).map fun (frame, ram, pool) =>
      ((s.hold (ram, pool)).note (.alloc frame)).goto t (.loading vme va frame)
  | .loading vme va frame =>
    (loadPage io vme va).map fun content =>
      { s with ram := update s.ram frame content }.goto t (.mapping vme va frame)
  | .mapping _ va frame =>
    if pagePresent b s.ram va then
      some (((s.hold (free usable link (s.ram, s.stock) frame)).note (.free frame)).goto t .user)
    else if canonical va then
      (map s.ram s.stock b.common 3 (va >>> 12) frame true true).map fun m =>
        ((s.hold m).note (.install va frame)).goto t .user
    else none
  | .closing =>
    let active := s.active-1
    some ({ s with active := active }.goto t (if active = 0 then .last else .freeing))
  | .last => some (({ s with sharedVmes := [] }.note .empty).goto t .freeing)
  | .freeing =>
    match s.root t with
    | none => none
    | some r =>
      let m := free usable link (freePrivatePageTables usable link r (s.ram, s.stock)) r
      some ({ s.hold m with root := update s.root t none }.goto t .gone)

/-- What a thread does in user mode; a store is to a page of the shared half, which the roots of
all threads share. -/
def Kernel.call (s : Kernel ν) : Action ν → Option (Kernel ν)
  | .create _ => some { s.goto s.made .created with made := s.made+1 }
  | .mmap _ length flags file offset =>
    if flags &&& 1 ≠ 0 then
      match (Mappings.mk [] s.sharedVmes).mmap b.hhdmOffset length.toNat flags file offset.toNat with
      | (none, maps) => some { s with sharedVmes := maps.sharedVmes }
      | (some va, maps) =>
        some ({ s with sharedVmes := maps.sharedVmes }.note
          (.region va (pageAlignUp length.toNat)))
    else none
  | .fault t cr2 errorCode =>
    let vaPage := cr2.toNat / 4096 * 4096
    if errorCode.toNat.testBit 0 then none
    else if sharedBase b.hhdmOffset ≤ vaPage ∧ vaPage < sharedLimit then
      some (s.goto t (.checking vaPage))
    else none
  | .store _ va i value =>
    if sharedBase b.hhdmOffset ≤ va ∧ va < sharedLimit ∧ va % 4096 = 0 ∧ i < 512 then
      (findPte s.ram 3 b.common (va >>> 12)).map fun (table, index) =>
        { s with ram := storeWord s.ram (entryPpn (s.ram table index)) i value }.note
          (.store va i value)
    else none
  | .exit t => some (s.goto t .closing)
  | .mapMmio .. | .run _ => none

/-- The thread that acts, which has to be in user mode. -/
def Action.caller : Action ν → Option Nat
  | .create t | .mmap t .. | .fault t .. | .store t .. | .exit t => some t
  | .mapMmio t .. => t
  | .run _ => none

def Pc.isUser : Pc ν → Bool
  | .user => true
  | _ => false

def Kernel.step (s : Kernel ν) (a : Action ν) : Option (Kernel ν) :=
  if a.caller.all fun t => (s.pc t).isUser then
    match a with
    | .run t => s.run io usable link b t
    | .mapMmio t pa length =>
      let cr3 := (t.bind s.root).getD b.common
      (mapMmio b cr3 pa.toNat length.toNat (s.ram, s.stock)).map fun m =>
        let windows := (mmioPages pa.toNat length.toNat).map fun curr =>
          Event.window (wrap (curr+b.hhdmOffset))
        { s.hold m with log := windows ++ s.log }
    | a => s.call b a
  else none

/-- Thread 0 is made, which runs `kernel_main`. -/
def Kernel.boot (ram : Ram) (stock : List Nat) : Kernel ν where
  ram := ram
  stock := stock
  sharedVmes := []
  rootsReady := false
  active := 0
  made := 1
  pc := fun t => if t = 0 then .created else .unborn
  root := fun _ => none
  log := []

/-- At boot nothing is mapped in the shared range, and the frames of `physMem` are no tables. -/
structure BootOk (ram : Ram) (stock : List Nat) : Prop where
  wellFormed : WellFormed ram 3 b.common
  nodup : stock.Nodup
  apart : ∀ f ∈ stock, ¬InTree ram 3 b.common f
  good : ∀ f ∈ stock, Good usable f
  clear : ∀ va, sharedBase b.hhdmOffset ≤ va → va < sharedLimit →
    walk ram 3 b.common (va >>> 12) = none

def sharedMachine : Machine (Kernel ν) (Action ν) where
  Init s := ∃ ram stock, BootOk usable b ram stock ∧ s = Kernel.boot ram stock
  step := Kernel.step io usable link b

end Definitions

end NetKernel.SharedMappings
