import Mathlib.Data.Set.Finite.Lattice
import NetKernel.Lib.Orbits
import NetKernel.Net.Pcie

/-! The register layout of a virtio function, read off the linked list of its PCI
capabilities in at most 48 rounds, whatever the list looks like. -/
namespace NetKernel.VirtioPci
open Relation Orbits Pcie

abbrev pciCapIdVendor : UInt8 := 0x09
abbrev virtioPciCapCommonCfg : UInt8 := 1
abbrev virtioPciCapNotifyCfg : UInt8 := 2
abbrev virtioPciCapIsrCfg : UInt8 := 3
abbrev virtioPciCapDeviceCfg : UInt8 := 4

/-- The bound on `scanned`. -/
abbrev maxScanned : Nat := 48

structure VirtioPciRegion where
  present : Bool
  bar : UInt8
  offset : UInt32
  length : UInt32
deriving DecidableEq, Repr

structure VirtioPciLayout where
  common : VirtioPciRegion
  notify : VirtioPciRegion
  isr : VirtioPciRegion
  device : VirtioPciRegion
  notifyMultiplier : UInt32
deriving DecidableEq, Repr

def absent : VirtioPciRegion := ⟨false, 0, 0, 0⟩

/-- `layout = {}`. -/
def VirtioPciLayout.none : VirtioPciLayout := ⟨absent, absent, absent, absent, 0⟩

def storeRegion (bar : UInt8) (offset length : UInt32) : VirtioPciRegion :=
  ⟨true, bar, offset, length⟩

variable (c : ConfigSpace) (fn : PciFunction)

def read8 (offset : UInt8) : UInt8 := pciConfigRead8 c fn.bus fn.device fn.function offset

def read32 (offset : UInt8) : UInt32 := pciConfigRead32 c fn.bus fn.device fn.function offset

/-- The body of the loop over the capabilities; offsets wrap at 256. -/
def visitCap (layout : VirtioPciLayout) (cap : UInt8) : VirtioPciLayout :=
  if read8 c fn cap ≠ pciCapIdVendor then layout else
  let cfgType := read8 c fn (cap+3)
  let bar := read8 c fn (cap+4)
  let offset := read32 c fn (cap+8)
  let length := read32 c fn (cap+12)
  if 6 ≤ bar then layout else
  if cfgType = virtioPciCapCommonCfg then { layout with common := storeRegion bar offset length }
  else if cfgType = virtioPciCapNotifyCfg then
    { layout with
      notify := storeRegion bar offset length
      notifyMultiplier := read32 c fn (cap+16) }
  else if cfgType = virtioPciCapIsrCfg then { layout with isr := storeRegion bar offset length }
  else if cfgType = virtioPciCapDeviceCfg then
    { layout with device := storeRegion bar offset length }
  else layout

def nextCap (cap : UInt8) : UInt8 := read8 c fn (cap+1) &&& 0xfc

def capLoop : Nat → UInt8 → VirtioPciLayout → VirtioPciLayout
  | 0, _, layout => layout
  | rounds+1, cap, layout =>
    if cap = 0 then layout else capLoop rounds (nextCap c fn cap) (visitCap c fn layout cap)

def firstCap : UInt8 := read8 c fn pciRegCapPtr &&& 0xfc

/-- The layout, and whether it has the common and the notify region. -/
def parseVirtioPciLayout : VirtioPciLayout × Bool :=
  let layout := capLoop c fn maxScanned (firstCap c fn) .none
  (layout, layout.common.present && layout.notify.present)

/-! The list of capabilities. -/

/-- The capability after one, none at the end of the list. -/
def follow (cap : UInt8) : Option UInt8 :=
  if nextCap c fn cap = 0 then none else some (nextCap c fn cap)

def Listed (cap : UInt8) : Prop := firstCap c fn ≠ 0 ∧ Reaches (follow c fn) (firstCap c fn) cap

def visited : List UInt8 :=
  if firstCap c fn = 0 then [] else trail (follow c fn) maxScanned (firstCap c fn)

inductive Kind where
  | common
  | notify
  | isr
  | device
deriving DecidableEq, Repr

def Kind.cfgType : Kind → UInt8
  | .common => virtioPciCapCommonCfg
  | .notify => virtioPciCapNotifyCfg
  | .isr => virtioPciCapIsrCfg
  | .device => virtioPciCapDeviceCfg

/-- The region of a kind, with the multiplier that goes with the notify region. -/
def VirtioPciLayout.entry (layout : VirtioPciLayout) : Kind → VirtioPciRegion × UInt32
  | .common => (layout.common, 0)
  | .notify => (layout.notify, layout.notifyMultiplier)
  | .isr => (layout.isr, 0)
  | .device => (layout.device, 0)

/-- A vendor capability that gives a region of a kind in one of the six BARs. -/
def Gives (kind : Kind) (cap : UInt8) : Prop :=
  read8 c fn cap = pciCapIdVendor ∧ read8 c fn (cap+3) = kind.cfgType ∧ read8 c fn (cap+4) < 6

def entryOf (kind : Kind) (cap : UInt8) : VirtioPciRegion × UInt32 :=
  (storeRegion (read8 c fn (cap+4)) (read32 c fn (cap+8)) (read32 c fn (cap+12)),
    if kind = .notify then read32 c fn (cap+16) else 0)

variable {c fn} {cap : UInt8} {kind : Kind} {layout : VirtioPciLayout} {caps : List UInt8}

theorem entry_visitCap (h : Gives c fn kind cap) :
    (visitCap c fn layout cap).entry kind = entryOf c fn kind cap := by
  obtain ⟨hv,hk,hb⟩ := h
  unfold visitCap
  rw [if_neg (not_not.mpr hv), if_neg (UInt8.not_le.mpr hb), hk]
  cases kind <;> rfl

theorem entry_visitCap_other (h : ¬ Gives c fn kind cap) :
    (visitCap c fn layout cap).entry kind = layout.entry kind := by
  unfold visitCap
  by_cases hv : read8 c fn cap = pciCapIdVendor
  · by_cases hb : 6 ≤ read8 c fn (cap+4)
    · rw [if_neg (not_not.mpr hv), if_pos hb]
    · rw [if_neg (not_not.mpr hv), if_neg hb]
      have hk : read8 c fn (cap+3) ≠ kind.cfgType := fun hk => h ⟨hv, hk, UInt8.not_le.mp hb⟩
      generalize read8 c fn (cap+3) = cfgType at hk ⊢
      split_ifs
      all_goals cases kind <;> first | rfl | exact absurd ‹_› hk
  · rw [if_pos hv]

theorem capLoop_eq (rounds : Nat) (hcap : cap ≠ 0) : capLoop c fn rounds cap layout =
    (trail (follow c fn) rounds cap).foldl (visitCap c fn) layout := by
  induction rounds generalizing cap layout with
  | zero => rfl
  | succ rounds ih =>
    rw [capLoop, if_neg hcap]
    by_cases hnext : nextCap c fn cap = 0
    · have hend : follow c fn cap = none := if_pos hnext
      rw [trail, hend, hnext]
      cases rounds <;> rfl
    · have hmore : follow c fn cap = some (nextCap c fn cap) := if_neg hnext
      rw [trail_cons hmore, ih hnext]
      rfl

theorem parse_layout : (parseVirtioPciLayout c fn).1 =
    (visited c fn).foldl (visitCap c fn) .none := by
  change capLoop c fn maxScanned (firstCap c fn) .none = _
  unfold visited
  by_cases h : firstCap c fn = 0
  · rw [if_pos h, h]
    rfl
  · rw [if_neg h, capLoop_eq _ h]

theorem entry_foldl_other (h : ∀ cap ∈ caps, ¬ Gives c fn kind cap) :
    (caps.foldl (visitCap c fn) layout).entry kind = layout.entry kind := by
  induction caps generalizing layout with
  | nil => rfl
  | cons cap caps ih =>
    rw [List.foldl_cons, ih fun cap hcap => h cap (List.mem_cons_of_mem _ hcap),
      entry_visitCap_other (h cap List.mem_cons_self)]

theorem entry_foldl_last {before after : List UInt8} (h : Gives c fn kind cap)
    (hlast : ∀ later ∈ after, ¬ Gives c fn kind later) :
    ((before ++ cap :: after).foldl (visitCap c fn) layout).entry kind = entryOf c fn kind cap := by
  rw [List.foldl_append, List.foldl_cons, entry_foldl_other hlast, entry_visitCap h]

theorem entry_foldl : (∃ cap ∈ caps, Gives c fn kind cap ∧
      (caps.foldl (visitCap c fn) layout).entry kind = entryOf c fn kind cap) ∨
    (∀ cap ∈ caps, ¬ Gives c fn kind cap) ∧
      (caps.foldl (visitCap c fn) layout).entry kind = layout.entry kind := by
  induction caps using List.reverseRecOn with
  | nil => exact .inr ⟨fun _ h => absurd h List.not_mem_nil, rfl⟩
  | append_singleton caps cap ih =>
    by_cases hg : Gives c fn kind cap
    · exact .inl ⟨cap, List.mem_append_right _ List.mem_cons_self, hg,
        entry_foldl_last hg fun _ h => absurd h List.not_mem_nil⟩
    · rw [List.foldl_append, List.foldl_cons, List.foldl_nil, entry_visitCap_other hg]
      obtain ⟨found,hmem,hgives,heq⟩ | ⟨hnone,heq⟩ := ih
      · exact .inl ⟨found, List.mem_append_left _ hmem, hgives, heq⟩
      · refine .inr ⟨fun other hother => ?_, heq⟩
        obtain hother | hother := List.mem_append.mp hother
        · exact hnone other hother
        · rwa [List.mem_singleton.mp hother]

/-! The capabilities visited. -/

theorem listed_of_mem_visited (h : cap ∈ visited c fn) : Listed c fn cap := by
  unfold visited at h
  split at h
  · cases h
  · exact ⟨‹_›, reaches_of_mem_trail h⟩

theorem listed_aligned (h : Listed c fn cap) : ∃ x : UInt8, cap = x &&& 0xfc := by
  obtain ⟨-,h⟩ := h
  obtain h | ⟨_,_,h⟩ := ReflTransGen.cases_tail h
  · exact ⟨_, h⟩
  · unfold follow at h
    split at h
    · cases h
    · exact ⟨_, (Option.some_inj.mp h).symm⟩

/-- The places a capability can stand in, above the standard header. -/
def capPlaces : Finset UInt8 := (Finset.range maxScanned).image fun k => UInt8.ofNat (64+4*k)

theorem mem_capPlaces (h : Listed c fn cap) (hcap : 0x40 ≤ cap) : cap ∈ capPlaces := by
  obtain ⟨x,hx⟩ := listed_aligned h
  have hnat : cap.toNat = 4*(x.toNat/4) := by rw [hx, toNat_aligned]
  have hlow : 64 ≤ cap.toNat := UInt8.le_iff_toNat_le.mp hcap
  have hhigh := cap.toNat_lt
  refine Finset.mem_image.mpr ⟨cap.toNat/4-16, Finset.mem_range.mpr ?_, ?_⟩
  · change _ < 48
    omega
  · rw [← UInt8.toNat_inj, UInt8.toNat_ofNat']
    omega

theorem mem_visited (hplace : ∀ cap, Listed c fn cap → 0x40 ≤ cap) (h : Listed c fn cap) :
    cap ∈ visited c fn := by
  unfold visited
  rw [if_neg h.1]
  refine mem_trail_of_ncard capPlaces.finite_toSet (fun z hz => ?_) ?_ h.2
  · exact Finset.mem_coe.mpr (mem_capPlaces ⟨h.1, hz⟩ (hplace z ⟨h.1, hz⟩))
  · rw [Set.ncard_coe_finset]
    exact Finset.card_image_le.trans_eq (Finset.card_range _)

theorem mem_visited_iff (hplace : ∀ cap, Listed c fn cap → 0x40 ≤ cap) :
    cap ∈ visited c fn ↔ Listed c fn cap :=
  ⟨listed_of_mem_visited, mem_visited hplace⟩

theorem length_visited : (visited c fn).length ≤ maxScanned := by
  unfold visited
  split
  · exact Nat.zero_le _
  · exact length_trail_le

theorem nodup_visited (h : ∀ cap, Listed c fn cap →
    ¬TransGen (fun x y => follow c fn x = some y) cap cap) : (visited c fn).Nodup := by
  unfold visited
  split
  · exact List.nodup_nil
  · rename_i hfirst
    exact nodup_trail fun cap hcap => h cap ⟨hfirst, hcap⟩

structure Found (c : ConfigSpace) (fn : PciFunction) (kind : Kind)
    (entry : VirtioPciRegion × UInt32) : Prop where
  /-- A region is recorded exactly when the list gives one. -/
  present : entry.1.present = true ↔ ∃ cap, Listed c fn cap ∧ Gives c fn kind cap
  /-- The last capability of the kind that is visited is the one. -/
  last : ∀ before cap after, visited c fn = before ++ cap :: after → Gives c fn kind cap →
    (∀ later ∈ after, ¬Gives c fn kind later) → entry = entryOf c fn kind cap
  none : (∀ cap, Listed c fn cap → ¬Gives c fn kind cap) → entry = (absent, 0)

/-- Registers by their offset in the one function of bus 0 there is, device 3. -/
def oneFunction (regs : List (UInt8 × UInt32)) : ConfigSpace where
  reg address :=
    ((regs.find? fun r => pciConfigAddress 0 3 0 r.1 == address).map (·.2)).getD 0xFFFFFFFF
  accepts _ _ value := value

/-- A network device with a common and a notify region in BAR 0, each pointing at the other. -/
def circleConfig : ConfigSpace :=
  oneFunction [(0x00, 0x10411AF4), (0x04, 0), (0x08, 0x02000001), (0x0C, 0), (0x10, 0xFE000000),
    (0x34, 0x40), (0x40, 0x01105409), (0x44, 0), (0x48, 0), (0x4C, 0x1000),
    (0x54, 0x02144009), (0x58, 0), (0x5C, 0x3000), (0x60, 0x1000), (0x64, 4)]

def circleFunction : PciFunction := ⟨0, 3, 0, 0x1AF4, 0x1041, 2, 0, 0, 1, 0⟩

end NetKernel.VirtioPci
