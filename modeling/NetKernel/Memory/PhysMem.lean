import Mathlib.Data.List.Perm.Basic
import Mathlib.Data.List.Range
import NetKernel.Lib.LinkedList
import NetKernel.Lib.Runs
import NetKernel.Memory.Heap

/-! Physical frames: the bump ranges of the memory map, and the free list threaded through
the first word of the free frames. Every frame is 512 64-bit words, seen through the direct
map. -/
namespace NetKernel.Frames
open Function LinkedList Runs
open Heaps (wrap sub64)

abbrev frameSize : Nat := 4096
abbrev maxTrackedPpn : Nat := 65536

/-- Frame number and index to word. -/
abbrev Ram := Nat → Nat → Nat

/-- The direct map covers the tracked frames in the canonical upper half. -/
structure DirectMap where
  hhdmOffset : Nat
  upper : 2^64-2^47 ≤ hhdmOffset
  room : hhdmOffset+2^28 ≤ 2^64

/-- `PPN(val)`. -/
def toPpn (val : Nat) : Nat := val % 2^48

/-- `VA(PPN)`. -/
def DirectMap.va (d : DirectMap) (ppn : Nat) : Nat := wrap (ppn*frameSize+d.hhdmOffset)

def DirectMap.ppn (d : DirectMap) (pointer : Nat) : Nat :=
  toPpn (sub64 pointer d.hhdmOffset / frameSize)

structure MemmapEntry where
  base : Nat
  length : Nat
  usable : Bool
deriving DecidableEq, Repr

def MemmapEntry.finish (e : MemmapEntry) : Nat := e.base+e.length

/-- A memory map whose usable ranges are not empty, page-aligned, disjoint and below
256 MB, and leave frame 0 out. -/
structure MemoryMap where
  entries : List MemmapEntry
  aligned : ∀ e ∈ entries, e.usable = true → e.base % frameSize = 0 ∧ e.length % frameSize = 0
  positive : ∀ e ∈ entries, e.usable = true → 0 < e.base ∧ 0 < e.length
  below : ∀ e ∈ entries, e.usable = true → e.finish ≤ 2^28
  disjoint : (entries.filter (·.usable)).Pairwise fun a b => a.finish ≤ b.base ∨ b.finish ≤ a.base

def paInUsableRange (memmap : List MemmapEntry) (pa : Nat) : Bool :=
  memmap.any fun e =>
    let finish := wrap (e.base+e.length)
    e.usable && decide (frameSize ≤ e.length) && decide (e.base ≤ finish) &&
      decide (e.base ≤ pa) && decide (pa ≤ finish-frameSize)

structure Range where
  base : Nat
  length : Nat
deriving DecidableEq, Repr

/-- `avail` is a pointer, 0 for null. A frame's state is 1 when it is allocated and 2 when
it is on the free list. -/
structure PhysMem where
  avail : Nat
  freeRanges : List Range
  frameState : Nat → Nat

/-- `PhysMem::PhysMem`. -/
def PhysMem.boot (memmap : List MemmapEntry) : PhysMem where
  avail := 0
  freeRanges := memmap.foldl (fun ranges e =>
    if e.usable then ⟨e.base, e.length⟩ :: ranges else ranges) []
  frameState _ := 0

def ppnIsTracked (ppn : Nat) : Bool := decide (ppn < maxTrackedPpn)

def PhysMem.track (pm : PhysMem) (ppn state : Nat) : PhysMem :=
  if ppnIsTracked ppn then { pm with frameState := update pm.frameState ppn state } else pm

def zeroFrame (ram : Ram) (ppn : Nat) : Ram := update ram ppn fun _ => 0

def storeWord (ram : Ram) (ppn i value : Nat) : Ram := update ram ppn (update (ram ppn) i value)

/-- The ranges once the first frame of the first range is taken. -/
def bump (range : Range) (ranges : List Range) : List Range :=
  let range := ⟨wrap (range.base+frameSize), sub64 range.length frameSize⟩
  if range.length = 0 then ranges else range :: ranges

/-- The frame, zeroed; `none` is the panic "out of frames". -/
def PhysMem.alloc (d : DirectMap) (ram : Ram) (pm : PhysMem) : Option (Nat × Ram × PhysMem) :=
  if pm.avail ≠ 0 then
    let ppn := d.ppn pm.avail
    some (ppn, zeroFrame ram ppn, { pm with avail := ram ppn 0 }.track ppn 1)
  else match pm.freeRanges with
    | [] => none
    | range :: ranges =>
      let ppn := toPpn (range.base / frameSize)
      some (ppn, zeroFrame ram ppn, { pm with freeRanges := bump range ranges }.track ppn 1)

/-- A frame that is not free goes on the free list, unless it is 0, outside the usable
ranges, or tracked and not allocated. -/
def PhysMem.free (d : DirectMap) (memmap : List MemmapEntry) (ram : Ram) (pm : PhysMem)
    (ppn : Nat) : Ram × PhysMem :=
  if ppn = 0 then (ram, pm) else
  if paInUsableRange memmap (ppn*frameSize) = false then (ram, pm) else
  if ppnIsTracked ppn = true ∧ pm.frameState ppn ≠ 1 then (ram, pm) else
  (storeWord ram ppn 0 pm.avail, { pm.track ppn 2 with avail := d.va ppn })

/-! Frames of ranges. -/

def framesOf (base length : Nat) : List Nat := List.range' (base/frameSize) (length/frameSize)

def MemoryMap.usableFrames (m : MemoryMap) : List Nat :=
  (m.entries.filter (·.usable)).flatMap fun e => framesOf e.base e.length

def PhysMem.rangeFrames (pm : PhysMem) : List Nat :=
  pm.freeRanges.flatMap fun r => framesOf r.base r.length

theorem mem_framesOf {base length f : Nat} (hb : base % frameSize = 0)
    (hl : length % frameSize = 0) :
    f ∈ framesOf base length ↔ base ≤ f*frameSize ∧ f*frameSize < base+length := by
  simp only [framesOf, frameSize, List.mem_range'_1] at *
  omega

theorem MemoryMap.mem_usableFrames (m : MemoryMap) {f : Nat} : f ∈ m.usableFrames ↔
    ∃ e ∈ m.entries, e.usable = true ∧ e.base ≤ f*frameSize ∧ f*frameSize < e.finish := by
  simp only [usableFrames, List.mem_flatMap, List.mem_filter]
  constructor
  · rintro ⟨e,⟨he,hu⟩,hf⟩
    obtain ⟨hb,hl⟩ := m.aligned e he hu
    exact ⟨e, he, hu, (mem_framesOf hb hl).mp hf⟩
  · rintro ⟨e,he,hu,hf⟩
    obtain ⟨hb,hl⟩ := m.aligned e he hu
    exact ⟨e, ⟨he, hu⟩, (mem_framesOf hb hl).mpr hf⟩

theorem MemoryMap.usable_lt (m : MemoryMap) {f : Nat} (hf : f ∈ m.usableFrames) :
    0 < f ∧ f < maxTrackedPpn := by
  obtain ⟨e,he,hu,hle,hlt⟩ := m.mem_usableFrames.mp hf
  have hpos := (m.positive e he hu).1
  have hbelow := m.below e he hu
  simp only [frameSize, maxTrackedPpn] at *
  omega

/-- The test of `free` recognises exactly the usable frames. -/
theorem MemoryMap.paInUsableRange_iff (m : MemoryMap) (f : Nat) :
    paInUsableRange m.entries (f*frameSize) = true ↔ f ∈ m.usableFrames := by
  rw [m.mem_usableFrames, paInUsableRange, List.any_eq_true]
  refine exists_congr fun e => and_congr_right fun he => ?_
  simp only [Bool.and_eq_true, decide_eq_true_eq]
  constructor
  · rintro ⟨⟨⟨⟨hu,hmin⟩,-⟩,hle⟩,hlt⟩
    have hbelow := m.below e he hu
    simp only [MemmapEntry.finish, frameSize] at *
    rw [wrap, Nat.mod_eq_of_lt (by omega)] at hlt
    exact ⟨hu, hle, by omega⟩
  · rintro ⟨hu,hle,hlt⟩
    have hbelow := m.below e he hu
    obtain ⟨hb,hl⟩ := m.aligned e he hu
    simp only [MemmapEntry.finish, frameSize] at *
    rw [wrap, Nat.mod_eq_of_lt (by omega)]
    exact ⟨⟨⟨⟨hu, by omega⟩, by omega⟩, hle⟩, by omega⟩

theorem MemoryMap.usable_nodup (m : MemoryMap) : m.usableFrames.Nodup := by
  refine List.nodup_flatMap.mpr ⟨fun e _ => List.nodup_range', ?_⟩
  refine List.Pairwise.imp_of_mem (fun {a b} ha hb hab => ?_) m.disjoint
  obtain ⟨ha,hua⟩ := List.mem_filter.mp ha
  obtain ⟨hb,hub⟩ := List.mem_filter.mp hb
  obtain ⟨hba,hla⟩ := m.aligned a ha hua
  obtain ⟨hbb,hlb⟩ := m.aligned b hb hub
  intro f hfa hfb
  have h1 := (mem_framesOf hba hla).mp hfa
  have h2 := (mem_framesOf hbb hlb).mp hfb
  simp only [MemmapEntry.finish] at hab
  omega

theorem MemoryMap.rangeFrames_boot (m : MemoryMap) :
    (PhysMem.boot m.entries).rangeFrames.Perm m.usableFrames := by
  have hgen : ∀ (entries : List MemmapEntry) (ranges : List Range),
      ((entries.foldl (fun ranges e => if e.usable then ⟨e.base, e.length⟩ :: ranges else ranges)
        ranges).flatMap fun r => framesOf r.base r.length).Perm
      ((entries.filter (·.usable)).flatMap (fun e => framesOf e.base e.length) ++
        ranges.flatMap fun r => framesOf r.base r.length) := by
    intro entries
    induction entries with
    | nil => exact fun ranges => List.Perm.refl _
    | cons e es ih =>
      intro ranges
      rw [List.foldl_cons]
      by_cases hu : e.usable = true
      · rw [if_pos hu, List.filter_cons_of_pos hu]
        refine (ih _).trans ?_
        simp only [List.flatMap_cons, ← List.append_assoc]
        exact List.perm_append_comm.append_right _
      · rw [if_neg hu, List.filter_cons_of_neg hu]
        exact ih ranges
  have h := hgen m.entries []
  rw [List.flatMap_nil, List.append_nil] at h
  exact h

/-! Pointers of the direct map. -/

section Pointers
variable (d : DirectMap) {f : Nat} (hf : f < maxTrackedPpn)
include hf

theorem DirectMap.va_eq : d.va f = f*frameSize+d.hhdmOffset := by
  have hr := d.room
  simp only [maxTrackedPpn, DirectMap.va, frameSize, wrap] at *
  exact Nat.mod_eq_of_lt (by omega)

theorem DirectMap.va_ne_null : d.va f ≠ 0 := by
  have hu := d.upper
  rw [d.va_eq hf]
  omega

theorem DirectMap.ppn_va : d.ppn (d.va f) = f := by
  have hr := d.room
  rw [DirectMap.ppn, d.va_eq hf]
  simp only [toPpn, sub64, maxTrackedPpn, frameSize] at *
  omega

end Pointers

theorem track_of_lt (pm : PhysMem) {f state : Nat} (hf : f < maxTrackedPpn) :
    pm.track f state = { pm with frameState := update pm.frameState f state } := by
  rw [PhysMem.track, ppnIsTracked, if_pos (decide_eq_true hf)]

/-! The three kinds of usable frames. -/

/-- A range the allocator can take frames from to its end. -/
structure Range.Whole (r : Range) : Prop where
  base : r.base % frameSize = 0
  length : r.length % frameSize = 0
  positive : 0 < r.length
  below : r.base+r.length ≤ 2^28

/-- `onList` is the free list from its top, `allocated` the frames handed out and not freed
since; the rest of the usable frames are in the ranges. -/
structure Supply (d : DirectMap) (m : MemoryMap) (ram : Ram) (pm : PhysMem)
    (onList allocated : List Nat) : Prop where
  chain : Chain 0 (fun p => ram (d.ppn p) 0) pm.avail (onList.map d.va)
  parts : (pm.rangeFrames ++ (onList ++ allocated)).Perm m.usableFrames
  ranges : ∀ r ∈ pm.freeRanges, r.Whole
  fresh : ∀ f ∈ pm.rangeFrames, pm.frameState f = 0
  listed : ∀ f ∈ onList, pm.frameState f = 2
  used : ∀ f ∈ allocated, pm.frameState f = 1

section Supply
variable {d : DirectMap} {m : MemoryMap} {ram ram' : Ram} {pm pm' : PhysMem}
  {onList allocated : List Nat} {f : Nat}

theorem Supply.usable (h : Supply d m ram pm onList allocated)
    (hf : f ∈ pm.rangeFrames ∨ f ∈ onList ∨ f ∈ allocated) : f ∈ m.usableFrames := by
  refine h.parts.mem_iff.mp ?_
  simpa only [List.mem_append] using hf

theorem Supply.lt (h : Supply d m ram pm onList allocated)
    (hf : f ∈ pm.rangeFrames ∨ f ∈ onList ∨ f ∈ allocated) : f < maxTrackedPpn :=
  (m.usable_lt (h.usable hf)).2

theorem Supply.nodup (h : Supply d m ram pm onList allocated) :
    (pm.rangeFrames ++ (onList ++ allocated)).Nodup :=
  h.parts.nodup_iff.mpr m.usable_nodup

theorem Supply.apart (h : Supply d m ram pm onList allocated) :
    (∀ f ∈ pm.rangeFrames, f ∉ onList ∧ f ∉ allocated) ∧ ∀ f ∈ onList, f ∉ allocated := by
  have hn := List.nodup_append.mp h.nodup
  refine ⟨fun f hf => ⟨fun ho => ?_, fun ha => ?_⟩, fun f ho ha => ?_⟩
  · exact hn.2.2 f hf f (List.mem_append_left _ ho) rfl
  · exact hn.2.2 f hf f (List.mem_append_right _ ha) rfl
  · exact (List.nodup_append.mp hn.2.1).2.2 f ho f ha rfl

theorem Supply.congr (h : Supply d m ram pm onList allocated)
    (hram : ∀ f ∈ onList, ram' f 0 = ram f 0) : Supply d m ram' pm onList allocated := by
  refine ⟨h.chain.congr fun p hp => ?_, h.parts, h.ranges, h.fresh, h.listed, h.used⟩
  obtain ⟨f,hf,rfl⟩ := List.mem_map.mp hp
  rw [d.ppn_va (h.lt (Or.inr (Or.inl hf)))]
  exact hram f hf

theorem Supply.pop (h : Supply d m ram pm (f :: onList) allocated) :
    Supply d m (zeroFrame ram f) ({ pm with avail := ram f 0 }.track f 1) onList
      (f :: allocated) := by
  have hlt := h.lt (Or.inr (Or.inl List.mem_cons_self))
  obtain ⟨hfresh,hlisted⟩ := h.apart
  obtain ⟨-,-,hchain⟩ := h.chain
  have hnot : f ∉ onList := by
    have hn := (List.nodup_append.mp h.nodup).2.1
    rw [List.cons_append, List.nodup_cons, List.mem_append, not_or] at hn
    exact hn.1.1
  have hmid : (pm.rangeFrames ++ (onList ++ f :: allocated)).Perm m.usableFrames := by
    refine List.Perm.trans ?_ h.parts
    exact List.Perm.append_left _ List.perm_middle
  simp only [d.ppn_va hlt] at hchain
  rw [track_of_lt _ hlt]
  have hbase : Supply d m ram { pm with
      avail := ram f 0, frameState := update pm.frameState f 1 } onList (f :: allocated) := by
    refine ⟨hchain, hmid, h.ranges, fun g hg => ?_, fun g hg => ?_, fun g hg => ?_⟩
    · have hne : g ≠ f := by rintro rfl; exact (hfresh g hg).1 List.mem_cons_self
      exact (update_of_ne hne _ _).trans (h.fresh g hg)
    · have hne : g ≠ f := by rintro rfl; exact hnot hg
      exact (update_of_ne hne _ _).trans (h.listed g (List.mem_cons_of_mem _ hg))
    · by_cases hgf : g = f
      · exact hgf ▸ update_self _ _ _
      · exact (update_of_ne hgf _ _).trans (h.used g ((List.mem_cons.mp hg).resolve_left hgf))
  refine hbase.congr fun g hg => ?_
  have hne : g ≠ f := by rintro rfl; exact hnot hg
  rw [zeroFrame, update_of_ne hne]

theorem framesOf_cons {base length : Nat} (hl : length % frameSize = 0) (hpos : 0 < length) :
    framesOf base length =
      base/frameSize :: framesOf (base+frameSize) (length-frameSize) := by
  have hn : length/frameSize = (length-frameSize)/frameSize+1 := by
    simp only [frameSize] at *
    omega
  have hb : (base+frameSize)/frameSize = base/frameSize+1 := by
    simp only [frameSize]
    omega
  rw [framesOf, framesOf, hn, hb, List.range'_succ]

theorem flatMap_bump {range : Range} {ranges : List Range} (h : range.Whole) :
    (range :: ranges).flatMap (fun r => framesOf r.base r.length) =
      range.base/frameSize :: (bump range ranges).flatMap fun r => framesOf r.base r.length := by
  obtain ⟨-,hl,hpos,hbelow⟩ := h
  have hb : wrap (range.base+frameSize) = range.base+frameSize := by
    simp only [frameSize, wrap] at *
    omega
  have hn : sub64 range.length frameSize = range.length-frameSize := by
    simp only [frameSize, sub64] at *
    omega
  rw [List.flatMap_cons, framesOf_cons hl hpos, List.cons_append]
  refine congrArg _ ?_
  simp only [bump, hb, hn]
  split
  · rename_i h0
    rw [h0]
    simp [framesOf]
  · rw [List.flatMap_cons]

theorem whole_bump {range : Range} {ranges : List Range}
    (h : ∀ r ∈ range :: ranges, r.Whole) : ∀ r ∈ bump range ranges, r.Whole := by
  intro r hr
  have hold : ∀ r ∈ ranges, r.Whole := fun r hm => h r (List.mem_cons_of_mem _ hm)
  obtain ⟨hb,hl,hpos,hbelow⟩ := h range List.mem_cons_self
  simp only [bump] at hr
  split at hr
  · exact hold r hr
  · rename_i h0
    cases List.mem_cons.mp hr with
    | inr hm => exact hold r hm
    | inl heq =>
      subst heq
      constructor
      all_goals simp only [frameSize, wrap, sub64] at *; omega

theorem Supply.bump {range : Range} {ranges : List Range}
    (h : Supply d m ram pm onList allocated) (hr : pm.freeRanges = range :: ranges) :
    Supply d m (zeroFrame ram (range.base/frameSize))
      ({ pm with freeRanges := Frames.bump range ranges }.track (range.base/frameSize) 1) onList
      (range.base/frameSize :: allocated) := by
  have hwhole := h.ranges
  rw [hr] at hwhole
  have hrest := whole_bump hwhole
  have hframes : pm.rangeFrames = range.base/frameSize ::
      (Frames.bump range ranges).flatMap fun r => framesOf r.base r.length := by
    rw [PhysMem.rangeFrames, hr]
    exact flatMap_bump (hwhole range List.mem_cons_self)
  have hin : range.base/frameSize ∈ pm.rangeFrames := by
    rw [hframes]
    exact List.mem_cons_self
  have hlt := h.lt (Or.inl hin)
  obtain ⟨hfresh,hlisted⟩ := h.apart
  have hnodup := (List.nodup_append.mp h.nodup).1
  have hparts := h.parts
  have hfr := h.fresh
  rw [hframes] at hnodup hparts hfr
  generalize range.base/frameSize = f at *
  generalize Frames.bump range ranges = rest at *
  rw [track_of_lt _ hlt]
  have hbase : Supply d m ram { pm with
      freeRanges := rest, frameState := update pm.frameState f 1 } onList (f :: allocated) := by
    refine ⟨h.chain, ?_, hrest, fun g hg => ?_, fun g hg => ?_, fun g hg => ?_⟩
    · refine List.Perm.trans ?_ hparts
      rw [List.cons_append, ← List.append_assoc, ← List.append_assoc]
      exact List.perm_middle
    · have hne : g ≠ f := by rintro rfl; exact (List.nodup_cons.mp hnodup).1 hg
      exact (update_of_ne hne _ _).trans (hfr g (List.mem_cons_of_mem _ hg))
    · have hne : g ≠ f := by rintro rfl; exact (hfresh g hin).1 hg
      exact (update_of_ne hne _ _).trans (h.listed g hg)
    · by_cases hgf : g = f
      · exact hgf ▸ update_self _ _ _
      · exact (update_of_ne hgf _ _).trans (h.used g ((List.mem_cons.mp hg).resolve_left hgf))
  refine hbase.congr fun g hg => ?_
  have hne : g ≠ f := by rintro rfl; exact (hfresh g hin).1 hg
  rw [zeroFrame, update_of_ne hne]

theorem rangeFrames_track (pm : PhysMem) (ppn state : Nat) :
    (pm.track ppn state).rangeFrames = pm.rangeFrames := by
  unfold PhysMem.track
  split <;> rfl

theorem Supply.nil_of_null (h : Supply d m ram pm onList allocated) (h0 : pm.avail = 0) :
    onList = [] := by
  have hchain := h.chain
  rw [h0] at hchain
  exact List.map_eq_nil_iff.mp hchain.nil_of_null

/-- `alloc` hands out a usable frame that is not allocated, zeroed: the first on the list, or
the first of the ranges when the list is empty. -/
theorem Supply.alloc (h : Supply d m ram pm onList allocated)
    (ha : pm.alloc d ram = some (f, ram', pm')) : f ∈ m.usableFrames ∧ f ∉ allocated ∧
      ram' = zeroFrame ram f ∧ ∃ onList', Supply d m ram' pm' onList' (f :: allocated) ∧
        onList ++ pm.rangeFrames = f :: (onList' ++ pm'.rangeFrames) := by
  obtain ⟨hfresh,hlisted⟩ := h.apart
  unfold PhysMem.alloc at ha
  by_cases hn : pm.avail ≠ 0
  · rw [if_pos hn] at ha
    obtain ⟨ptrs,hp,-⟩ := h.chain.pop hn
    obtain ⟨g,rest,rfl,hg,-⟩ := List.map_eq_cons_iff.mp hp
    have hlt := h.lt (Or.inr (Or.inl List.mem_cons_self))
    have hppn : d.ppn pm.avail = g := by rw [← hg, d.ppn_va hlt]
    rw [hppn] at ha
    cases ha
    refine ⟨h.usable (Or.inr (Or.inl List.mem_cons_self)), hlisted _ List.mem_cons_self, rfl, rest,
      h.pop, ?_⟩
    rw [rangeFrames_track]
    rfl
  · rw [if_neg hn] at ha
    obtain rfl := h.nil_of_null (not_not.mp hn)
    cases hr : pm.freeRanges with
    | nil =>
      rw [hr] at ha
      cases ha
    | cons range ranges =>
      rw [hr] at ha
      have hframes : pm.rangeFrames = range.base/frameSize ::
          (Frames.bump range ranges).flatMap fun r => framesOf r.base r.length := by
        rw [PhysMem.rangeFrames, hr]
        exact flatMap_bump (h.ranges range (hr ▸ List.mem_cons_self))
      have hin : range.base/frameSize ∈ pm.rangeFrames := hframes ▸ List.mem_cons_self
      have hppn : toPpn (range.base/frameSize) = range.base/frameSize := by
        have hlt : range.base/frameSize < 65536 := h.lt (Or.inl hin)
        exact Nat.mod_eq_of_lt (by omega)
      simp only [hppn] at ha
      cases ha
      refine ⟨h.usable (Or.inl hin), (hfresh _ hin).2, rfl, [], h.bump hr, ?_⟩
      rw [rangeFrames_track, List.nil_append, List.nil_append, hframes, PhysMem.rangeFrames]

theorem Supply.alloc_isSome (h : Supply d m ram pm onList allocated)
    (hleft : pm.rangeFrames ++ onList ≠ []) : (pm.alloc d ram).isSome := by
  unfold PhysMem.alloc
  by_cases hn : pm.avail ≠ 0
  · rw [if_pos hn]
    rfl
  · rw [if_neg hn]
    cases hr : pm.freeRanges with
    | cons range ranges => rfl
    | nil =>
      rw [PhysMem.rangeFrames, hr, h.nil_of_null (not_not.mp hn)] at hleft
      exact absurd rfl hleft

theorem Supply.free (h : Supply d m ram pm onList allocated) (hf : f ∈ allocated) :
    pm.free d m.entries ram f =
        (storeWord ram f 0 pm.avail, { pm.track f 2 with avail := d.va f }) ∧
      Supply d m (storeWord ram f 0 pm.avail) { pm.track f 2 with avail := d.va f } (f :: onList)
        (allocated.erase f) := by
  have hu := h.usable (Or.inr (Or.inr hf))
  have hlt := (m.usable_lt hu).2
  have hnodup := List.nodup_append.mp h.nodup
  have hda := (List.nodup_append.mp hnodup.2.1).2.1
  obtain ⟨hfresh,hlisted⟩ := h.apart
  have hnot : f ∉ onList := fun ho => hlisted f ho hf
  constructor
  · have hstate : ¬ (ppnIsTracked f = true ∧ pm.frameState f ≠ 1) := by
      rw [h.used f hf]
      simp
    have hpa : ¬ paInUsableRange m.entries (f*frameSize) = false := by
      rw [(m.paInUsableRange_iff f).mpr hu]
      decide
    rw [PhysMem.free, if_neg (by have := (m.usable_lt hu).1; omega), if_neg hpa, if_neg hstate]
  rw [track_of_lt _ hlt]
  have hmem {g : Nat} : g ∈ allocated.erase f ↔ g ≠ f ∧ g ∈ allocated := hda.mem_erase_iff
  refine ⟨⟨rfl, d.va_ne_null hlt, ?_⟩, ?_, h.ranges, fun g hg => ?_, fun g hg => ?_,
    fun g hg => ?_⟩
  · have hlink : storeWord ram f 0 pm.avail (d.ppn (d.va f)) 0 = pm.avail := by
      rw [d.ppn_va hlt, storeWord, update_self, update_self]
    simp only [hlink]
    refine h.chain.congr fun p hp => ?_
    obtain ⟨g,hg,rfl⟩ := List.mem_map.mp hp
    have hne : g ≠ f := by rintro rfl; exact hnot hg
    simp only [d.ppn_va (h.lt (Or.inr (Or.inl hg))), storeWord, update_of_ne hne]
  · refine List.Perm.trans (List.Perm.append_left _ ?_) h.parts
    exact List.perm_middle.symm.trans (List.Perm.append_left _ (List.perm_cons_erase hf).symm)
  · have hne : g ≠ f := by rintro rfl; exact (hfresh g hg).2 hf
    exact (update_of_ne hne _ _).trans (h.fresh g hg)
  · by_cases hgf : g = f
    · exact hgf ▸ update_self _ _ _
    · exact (update_of_ne hgf _ _).trans (h.listed g ((List.mem_cons.mp hg).resolve_left hgf))
  · obtain ⟨hne,hg⟩ := hmem.mp hg
    exact (update_of_ne hne _ _).trans (h.used g hg)

theorem Supply.free_other (h : Supply d m ram pm onList allocated) (hf : f ∉ allocated) :
    pm.free d m.entries ram f = (ram, pm) := by
  unfold PhysMem.free
  split
  · rfl
  split
  · rfl
  rename_i hpa
  have hu := (m.paInUsableRange_iff f).mp (by simpa using hpa)
  have hstate : pm.frameState f ≠ 1 := by
    rcases List.mem_append.mp (h.parts.mem_iff.mpr hu) with hr | hl
    · rw [h.fresh f hr]
      decide
    · rw [h.listed f ((List.mem_append.mp hl).resolve_right hf)]
      decide
  rw [if_pos ⟨decide_eq_true (m.usable_lt hu).2, hstate⟩]

theorem mem_boot {memmap : List MemmapEntry} {r : Range}
    (hr : r ∈ (PhysMem.boot memmap).freeRanges) :
    ∃ e ∈ memmap, e.usable = true ∧ r = ⟨e.base, e.length⟩ := by
  have hgen : ∀ (entries : List MemmapEntry) (ranges : List Range),
      r ∈ entries.foldl (fun ranges e => if e.usable then ⟨e.base, e.length⟩ :: ranges else ranges)
        ranges → r ∈ ranges ∨ ∃ e ∈ entries, e.usable = true ∧ r = ⟨e.base, e.length⟩ := by
    intro entries
    induction entries with
    | nil => exact fun _ hr => Or.inl hr
    | cons e es ih =>
      intro ranges hr
      cases ih _ hr with
      | inr hex =>
        obtain ⟨e',he,hu,heq⟩ := hex
        exact Or.inr ⟨e', List.mem_cons_of_mem _ he, hu, heq⟩
      | inl hr =>
        dsimp only at hr
        split at hr
        · rename_i hu
          cases List.mem_cons.mp hr with
          | inl heq => exact Or.inr ⟨e, List.mem_cons_self, hu, heq⟩
          | inr hr => exact Or.inl hr
        · exact Or.inl hr
  exact (hgen memmap [] hr).resolve_left List.not_mem_nil

theorem supply_boot (d : DirectMap) (m : MemoryMap) (ram : Ram) :
    Supply d m ram (PhysMem.boot m.entries) [] [] := by
  refine ⟨rfl, ?_, fun r hr => ?_, fun _ _ => rfl, by simp, by simp⟩
  · rw [List.append_nil, List.append_nil]
    exact m.rangeFrames_boot
  · obtain ⟨e,he,hu,rfl⟩ := mem_boot hr
    obtain ⟨hb,hl⟩ := m.aligned e he hu
    exact ⟨hb, hl, (m.positive e he hu).2, m.below e he hu⟩

end Supply

/-! Runs of the allocator and its clients. -/

/-- `allocated` records what `alloc` returned and nobody freed since. -/
structure FrameState where
  ram : Ram
  pm : PhysMem
  allocated : List Nat

/-- Any `free`, of any 64-bit number made a `PPN`; a store goes to an allocated frame. -/
inductive FrameAction where
  | alloc
  | free (val : Nat)
  | store (ppn i value : Nat)
deriving DecidableEq, Repr

def frameStep (d : DirectMap) (m : MemoryMap) (s : FrameState) : FrameAction → Option FrameState
  | .alloc =>
    match s.pm.alloc d s.ram with
    | some (ppn, ram, pm) => some ⟨ram, pm, ppn :: s.allocated⟩
    | none => none
  | .free val =>
    let (ram, pm) := s.pm.free d m.entries s.ram (toPpn val)
    some ⟨ram, pm, s.allocated.erase (toPpn val)⟩
  | .store ppn i value =>
    if ppn ∈ s.allocated then some { s with ram := storeWord s.ram ppn i value } else none

def frameMachine (d : DirectMap) (m : MemoryMap) : Machine FrameState FrameAction where
  Init s := s.pm = PhysMem.boot m.entries ∧ s.allocated = []
  step := frameStep d m

def FrameInv (d : DirectMap) (m : MemoryMap) (s : FrameState) : Prop :=
  ∃ onList, Supply d m s.ram s.pm onList s.allocated

section Runs
variable {d : DirectMap} {m : MemoryMap} {s t : FrameState}

theorem FrameInv.step {a : FrameAction} (h : FrameInv d m s) (hs : frameStep d m s a = some t) :
    FrameInv d m t := by
  obtain ⟨onList,h⟩ := h
  cases a with
  | alloc =>
    simp only [frameStep] at hs
    split at hs
    · rename_i ppn ram pm ha
      cases hs
      obtain ⟨-,-,-,rest,hs,-⟩ := h.alloc ha
      exact ⟨rest, hs⟩
    · cases hs
  | free val =>
    simp only [frameStep, Option.some.injEq] at hs
    subst hs
    by_cases hf : toPpn val ∈ s.allocated
    · obtain ⟨heq,hs⟩ := h.free hf
      rw [heq]
      exact ⟨_, hs⟩
    · rw [h.free_other hf, List.erase_of_not_mem hf]
      exact ⟨onList, h⟩
  | store ppn i value =>
    simp only [frameStep] at hs
    split at hs
    · rename_i hp
      cases hs
      refine ⟨onList, h.congr fun f hf => ?_⟩
      have hne : f ≠ ppn := by rintro rfl; exact h.apart.2 f hf hp
      exact congrFun (update_of_ne hne _ _) 0
    · cases hs

theorem frame_inv : (frameMachine d m).system.Invariant (FrameInv d m) where
  init := by
    rintro s ⟨hpm,ha⟩
    refine ⟨[], ?_⟩
    rw [hpm, ha]
    exact supply_boot d m s.ram
  step := by
    rintro s t h ⟨a,-,hs⟩
    exact h.step hs

/-- In every run the usable frames are the range frames, the free list and the allocated
frames, each frame once; `alloc` returns none that is allocated, and freeing a frame that
is not allocated changes nothing. -/
theorem frame_conservation (d : DirectMap) (m : MemoryMap) (s : FrameState)
    (hr : (frameMachine d m).system.Reachable s) :
    (∃ onList, Chain 0 (fun p => s.ram (d.ppn p) 0) s.pm.avail (onList.map d.va) ∧
      (s.pm.rangeFrames ++ (onList ++ s.allocated)).Perm m.usableFrames ∧
      (s.pm.rangeFrames ++ (onList ++ s.allocated)).Nodup) ∧
    (∀ ppn ram pm, s.pm.alloc d s.ram = some (ppn, ram, pm) → ppn ∉ s.allocated) ∧
    ∀ val, toPpn val ∉ s.allocated → s.pm.free d m.entries s.ram (toPpn val) = (s.ram, s.pm) := by
  obtain ⟨onList,h⟩ := frame_inv.reachable hr
  exact ⟨⟨onList, h.chain, h.parts, h.nodup⟩, fun _ _ _ ha => (h.alloc ha).2.1,
    fun _ hf => h.free_other hf⟩

end Runs

/-- The direct map Limine sets up, and a map of two usable ranges around a reserved one. -/
def limineMap : DirectMap := ⟨0xFFFF800000000000, by decide, by decide⟩

def smallMap : MemoryMap where
  entries := [⟨0x1000, 0x2000, true⟩, ⟨0x3000, 0x1000, false⟩, ⟨0x8000, 0x1000, true⟩]
  aligned := by decide
  positive := by decide
  below := by decide
  disjoint := by decide

/-- The last frame of one range and the first of the next; a double free, a free of frame 0
and one outside, and the freed frame again. -/
def smallActions : List FrameAction :=
  [.alloc, .alloc, .store 1 0 5, .free 8, .free 8, .free 0, .free 3, .free 0x12345, .alloc]

def smallStart : FrameState := ⟨fun _ _ => 0, PhysMem.boot smallMap.entries, []⟩

theorem frame_conservation_small :
    ((frameMachine limineMap smallMap).run smallStart smallActions).allocated = [8, 1] ∧
    ((frameMachine limineMap smallMap).run smallStart smallActions).pm.rangeFrames = [2] ∧
    ∀ val, toPpn val ∉ [8, 1] →
      ((frameMachine limineMap smallMap).run smallStart smallActions).pm.free limineMap
        smallMap.entries ((frameMachine limineMap smallMap).run smallStart smallActions).ram
        (toPpn val) =
      (((frameMachine limineMap smallMap).run smallStart smallActions).ram,
        ((frameMachine limineMap smallMap).run smallStart smallActions).pm) := by
  have hr : (frameMachine limineMap smallMap).system.Reachable
      ((frameMachine limineMap smallMap).run smallStart smallActions) :=
    Machine.reachable_run (.init ⟨rfl, rfl⟩) Machine.allowed_true
  have ha : ((frameMachine limineMap smallMap).run smallStart smallActions).allocated = [8, 1] := by
    decide +kernel
  refine ⟨ha, by decide +kernel, fun val hv => ?_⟩
  exact (frame_conservation _ _ _ hr).2.2 val (by rw [ha]; exact hv)

end NetKernel.Frames
