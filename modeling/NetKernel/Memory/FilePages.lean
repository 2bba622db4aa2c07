import NetKernel.Memory.LengthRounding
import NetKernel.Memory.SharedFaults

/-! What a fault shows in a private mapping of a file, after `munmap` has trimmed and split
the mapping. -/
namespace NetKernel.FilePages
open Function Runs Spans Vmes
open Blocks (BlockIo)
open Frames (Ram)
open Heaps (wrap sub64)
open SharedMappings (loadPage pageByte initialByte RegionOk)

variable {ν : Type*}

/-- The private fault on a page as far as `load_page`: memory with the page in `frame`. -/
def loadPrivate (io : ν → BlockIo) (s : Mappings ν) (vaPage frame : Nat) (ram : Ram) :
    Option Ram :=
  (findVme s.vmes vaPage).bind fun vme => (loadPage io vme vaPage).map (update ram frame)

/-- Later calls of `munmap`, each with its address and its length. -/
def munmaps (hhdmOffset : UInt64) (s : Mappings ν) (calls : List (UInt64 × UInt64)) :
    Mappings ν :=
  calls.foldl (fun s call => (s.munmap hhdmOffset.toNat call.1.toNat call.2.toNat).2.1) s

/-- The byte of a file at a position; zero from its end on. -/
def fileByte (d : BlockIo) (i : Nat) : UInt8 :=
  if i < d.sizeInBytes then (d.byteAt i).getD 0 else 0

/-- A fault on the page fills any frame with the bytes of the file from `pos` on. -/
def ShowsFile (io : ν → BlockIo) (s : Mappings ν) (node : ν) (pos vaPage : Nat) : Prop :=
  ∀ frame ram, ∃ ram', loadPrivate io s vaPage frame ram = some ram' ∧
    ∀ j < 4096, pageByte (ram' frame) j = (fileByte (io node) (pos+j)).toNat

theorem pageFault_loads {io : ν → BlockIo} {maps : Mappings ν} {hhdmOffset root cr2 errorCode : Nat}
    {vme : Vme ν} {content : Nat → Nat} {ram : Ram} {stock : List Nat} {t' : Ram × List Nat}
    (hv : findVme maps.vmes (cr2 / 4096 * 4096) = some vme)
    (hl : loadPage io vme (cr2 / 4096 * 4096) = some content)
    (hs : AddressSpaces.pageFault hhdmOffset maps root cr2 errorCode content (ram, stock) =
      some t') : ∃ frame ram₁ ram₂ pool, PageTables.alloc ram stock = some (frame, ram₁, pool) ∧
      loadPrivate io maps (cr2 / 4096 * 4096) frame ram₁ = some ram₂ ∧
      PageTables.map ram₂ pool root 3 ((cr2 / 4096 * 4096) >>> 12) frame true true = some t' := by
  simp only [AddressSpaces.pageFault] at hs
  split at hs
  · cases hs
  split at hs
  · cases hs
  split at hs
  · cases hs
  split at hs
  · split at hs
    · cases hs
    · rename_i frame ram₁ pool halloc
      refine ⟨frame, ram₁, update ram₁ frame content, pool, halloc, ?_, hs⟩
      rw [loadPrivate, hv, Option.bind_some, hl]
      rfl
  · cases hs

variable {hhdmOffset : UInt64} {s t : Mappings ν} {flags : Int32} {file : Option ν}
  {length offset va a : Nat}

/-! The regions of the list. -/

/-- Every region lies at pages and in front of pages of its file. -/
def Regions (s : Mappings ν) : Prop := ∀ vme ∈ s.vmes, RegionOk vme

theorem regionOk_unmapVme {curr : Vme ν} {start finish : Nat} (h : RegionOk curr)
    (hpos : curr.start ≤ curr.finish) (hrange : start ≤ finish) (hs : start % pageSize = 0)
    (hf : finish % pageSize = 0) : ∀ vme ∈ (unmapVme start finish curr).1, RegionOk vme := by
  obtain ⟨hcs,hcf,hco,hlt⟩ := h
  obtain ⟨-,heq⟩ | ⟨first,last,shared,hfirst,hlast,hle,heq⟩ := unmapVme_cases hpos hrange
  · rw [heq]
    intro vme hv
    rw [List.mem_singleton.mp hv]
    exact ⟨hcs, hcf, hco, hlt⟩
  · have haligned : curr.Aligned := ⟨hcs, hcf⟩
    obtain ⟨hfa,hla⟩ := clamp_aligned hs hf haligned
    rw [← hfirst] at hfa
    rw [← hlast] at hla
    simp only [pageSize] at hfa hla
    rw [heq]
    intro vme hv
    obtain hv | hv := List.mem_append.mp hv
    · unfold before at hv
      split at hv
      · rw [List.mem_singleton.mp hv]
        exact ⟨hcs, hfa, hco, by dsimp only; omega⟩
      · cases hv
    · unfold after at hv
      split at hv
      · rw [List.mem_singleton.mp hv]
        refine ⟨hla, hcf, ?_, hlt⟩
        simp only [wrap, sub64]
        omega
      · cases hv

theorem mmap_inserts (h : Listed hhdmOffset s) (hp : flags &&& 1 = 0)
    (hm : s.mmap hhdmOffset.toNat length flags file offset = (some va, t)) :
    offset % pageSize = 0 ∧ va+pageAlignUp length < 2^64 ∧ ∃ pre post, s.vmes = pre ++ post ∧
      t.vmes = pre ++ ⟨va, va+pageAlignUp length, file, offset, false⟩ :: post ∧
      (∀ vme ∈ pre, vme.finish ≤ va) ∧ (va = privateBase ∨ ∃ vme ∈ pre, va = vme.finish) := by
  obtain heq | ⟨-,ho,va',vmes,⟨hs,-⟩ | ⟨-,hs,heq⟩⟩ :=
    mmap_cases hhdmOffset.toNat s length flags file offset
  · rw [heq] at hm
    cases hm
  · exact absurd hp hs
  · rw [heq] at hm
    cases hm
    obtain ⟨hfit,pre,post,hpp,rfl,hpre,-,hva⟩ := insertFrom_some h.vmes (top_lt hhdmOffset)
      (Nat.le_max_right _ _) hs
    exact ⟨ho, Nat.lt_of_le_of_lt hfit hhdmOffset.toNat_lt, pre, post, hpp, rfl,
      fun vme hv => (hpre.bounds hv).2.2, hva⟩

theorem Regions.mmap (h : Listed hhdmOffset s) (hr : Regions s) (length : Nat) (flags : Int32)
    (file : Option ν) (offset : Nat) :
    Regions (s.mmap hhdmOffset.toNat length flags file offset).2 := by
  obtain heq | ⟨-,-,va,vmes,⟨-,-,heq⟩ | ⟨hp,-,heq⟩⟩ :=
    mmap_cases hhdmOffset.toNat s length flags file offset
  · rw [heq]
    exact hr
  · rw [heq]
    exact hr
  obtain ⟨ho,hlt,pre,post,hpp,hnew,-,hva⟩ := mmap_inserts h hp heq
  have hold : ∀ vme ∈ pre ++ post, RegionOk vme := hpp ▸ hr
  have hstart : va % 4096 = 0 := by
    obtain rfl | ⟨vme,hv,rfl⟩ := hva
    · rfl
    · exact (hold vme (List.mem_append_left _ hv)).finish
  have hlen : pageAlignUp length % 4096 = 0 := pageAlignUp_mod
  rw [heq]
  intro vme hv
  rw [hnew] at hv
  obtain hv | hv := List.mem_append.mp hv
  · exact hold vme (List.mem_append_left _ hv)
  obtain rfl | hv := List.mem_cons.mp hv
  · exact ⟨hstart, by dsimp only; omega, ho, hlt⟩
  · exact hold vme (List.mem_append_right _ hv)

theorem Regions.munmap (h : Listed hhdmOffset s) (hr : Regions s) (addr length : Nat) :
    Regions (s.munmap hhdmOffset.toNat addr length).2.1 := by
  obtain heq | ⟨-,hs,hf,hrange,heq⟩ := munmap_cases hhdmOffset.toNat s addr length
  · rw [heq]
    exact hr
  · rw [heq]
    intro vme hv
    obtain ⟨curr,hm,hv⟩ := mem_munmapFrom_kept hv
    exact regionOk_unmapVme (hr curr hm) (h.vmes.bounds hm).2.1 hrange hs hf vme hv

theorem regions_invariant : (mappingMachine ν hhdmOffset).system.Invariant fun s =>
    Listed hhdmOffset s ∧ Regions s where
  init := by
    rintro s rfl
    exact ⟨listed_invariant.init _ rfl, fun vme hv => by cases hv⟩
  step := by
    rintro s t ⟨h,hr⟩ hs
    refine ⟨listed_invariant.step s t h hs, ?_⟩
    obtain ⟨call,-,hs⟩ := hs
    cases hs
    cases call with
    | mmap length flags file offset => exact hr.mmap h length.toNat flags file offset.toNat
    | munmap addr length => exact hr.munmap h addr.toNat length.toNat

/-! The part of the file behind an address. -/

theorem backing_munmap (h : Listed hhdmOffset s) (addr length a : Nat) :
    backing (s.munmap hhdmOffset.toNat addr length).2.1.vmes a = none ∨
      backing (s.munmap hhdmOffset.toNat addr length).2.1.vmes a = backing s.vmes a := by
  obtain heq | ⟨-,-,-,hrange,heq⟩ := munmap_cases hhdmOffset.toNat s addr length
  · rw [heq]
    exact Or.inr rfl
  · rw [heq]
    dsimp only
    rw [backing_munmapFrom h.vmes (top_lt hhdmOffset) hrange]
    split
    · exact Or.inl rfl
    · exact Or.inr rfl

theorem munmaps_keep (h : Listed hhdmOffset s) (hr : Regions s) (calls : List (UInt64 × UInt64)) :
    Listed hhdmOffset (munmaps hhdmOffset s calls) ∧ Regions (munmaps hhdmOffset s calls) ∧
      ∀ a, backing (munmaps hhdmOffset s calls).vmes a = none ∨
        backing (munmaps hhdmOffset s calls).vmes a = backing s.vmes a := by
  induction calls generalizing s with
  | nil => exact ⟨h, hr, fun a => Or.inr rfl⟩
  | cons call calls ih =>
    obtain ⟨hl,hreg,hback⟩ := ih (h.munmap call.1.toNat call.2.toNat)
      (hr.munmap h call.1.toNat call.2.toNat)
    refine ⟨hl, hreg, fun a => ?_⟩
    obtain hnone | heq := hback a
    · exact Or.inl hnone
    · obtain hnone | hsame := backing_munmap h call.1.toNat call.2.toNat a
      · exact Or.inl (heq.trans hnone)
      · exact Or.inr (heq.trans hsame)

theorem backing_mmap (h : Listed hhdmOffset s) (hp : flags &&& 1 = 0)
    (hm : s.mmap hhdmOffset.toNat length flags file offset = (some va, t))
    (ha : va ≤ a ∧ a < va+pageAlignUp length) :
    backing t.vmes a = some (file, wrap (offset+(a-va))) := by
  obtain ⟨-,-,pre,post,-,hnew,hpre,-⟩ := mmap_inserts h hp hm
  rw [hnew, backing_insert hpre, if_pos ha]

/-- A fault on a page of a file shows the file from the position behind the page on, computed
modulo 2^64. -/
theorem load_backed {io : ν → BlockIo} {node : ν} {pos : Nat} (hr : Regions s)
    (hread : ∀ i < (io node).sizeInBytes, ((io node).byteAt i).isSome) (hva : va % 4096 = 0)
    (hb : backing s.vmes va = some (some node, pos)) :
    ∃ content, (∀ j < 4096, pageByte content j = (fileByte (io node) (pos+j)).toNat) ∧
      ∀ frame ram, loadPrivate io s va frame ram = some (update ram frame content) := by
  obtain ⟨vme,hf,heq⟩ := Option.map_eq_some_iff.mp hb
  obtain ⟨hn,hpos⟩ := Prod.mk.injEq .. ▸ heq
  have hok := hr vme (List.mem_of_find?_eq_some hf)
  have hin : vme.start ≤ va ∧ va < vme.finish := of_decide_eq_true
    (List.find?_some (p := fun x : Vme ν => decide (x.start ≤ va ∧ va < x.finish)) hf)
  obtain ⟨content,hl⟩ := SharedMappings.loadPage_isSome hok hin hva hn hread
  refine ⟨content, fun j hj => ?_, fun frame ram => ?_⟩
  · rw [SharedMappings.loadPage_bytes hok hin hva hl j hj, initialByte, hn]
    have hbyte : wrap (vme.offset+(va+j-vme.start)) = pos+j := by
      obtain ⟨hs,-,ho,-⟩ := hok
      rw [← hpos, wrap, wrap]
      omega
    dsimp only
    rw [hbyte]
    rfl
  · rw [loadPrivate, hf, Option.bind_some, hl]
    rfl

/-- In a private mapping of a file, made in any run and trimmed or split by any calls of
`munmap`, a fault on a page that is left shows the file from the offset of the page on if and
only if that offset is below 2^64, or the file has nothing but zeros where it wraps to. -/
theorem file_pages_iff (ν : Type*) (io : ν → BlockIo) (hhdmOffset : UInt64) (s : Mappings ν)
    (hr : (mappingMachine ν hhdmOffset).system.Reachable s) (length : UInt64) (flags : Int32)
    (hprivate : flags &&& 1 = 0) (node : ν)
    (hread : ∀ i < (io node).sizeInBytes, ((io node).byteAt i).isSome) (offset : UInt64)
    (start : Nat) (t : Mappings ν)
    (hm : s.mmap hhdmOffset.toNat length.toNat flags (some node) offset.toNat = (some start, t))
    (calls : List (UInt64 × UInt64)) (va : Nat) (hva : va % 4096 = 0)
    (hin : start ≤ va ∧ va < start+pageAlignUp length.toNat)
    (hmapped : Mapped (munmaps hhdmOffset t calls).vmes va) :
    ShowsFile io (munmaps hhdmOffset t calls) node (offset.toNat+(va-start)) va ↔
      offset.toNat+(va-start) < 2^64 ∨
        ∀ j < 4096, fileByte (io node) (offset.toNat+(va-start)-2^64+j) = 0 := by
  obtain ⟨h,hreg⟩ := regions_invariant.reachable hr
  have ht : Listed hhdmOffset t := by
    have := h.mmap length.toNat flags (some node) offset.toNat
    rwa [hm] at this
  have hregt : Regions t := by
    have := hreg.mmap h length.toNat flags (some node) offset.toNat
    rwa [hm] at this
  obtain ⟨-,hreg',hback⟩ := munmaps_keep ht hregt calls
  have hb : backing (munmaps hhdmOffset t calls).vmes va =
      some (some node, wrap (offset.toNat+(va-start))) := by
    obtain hnone | heq := hback va
    · rw [mapped_iff_backing, hnone] at hmapped
      cases hmapped
    · rw [heq, backing_mmap h hprivate hm hin]
  obtain ⟨content,hbytes,hload⟩ := load_backed hreg' hread hva hb
  have hshows : ShowsFile io (munmaps hhdmOffset t calls) node (offset.toNat+(va-start)) va ↔
      ∀ j < 4096, fileByte (io node) (wrap (offset.toNat+(va-start))+j) =
        fileByte (io node) (offset.toNat+(va-start)+j) := by
    constructor
    · intro hs j hj
      obtain ⟨ram',heq,hs⟩ := hs 0 fun _ _ => 0
      rw [hload] at heq
      cases heq
      have := hs j hj
      rw [update_self, hbytes j hj] at this
      exact UInt8.toNat_inj.mp this
    · intro hs frame ram
      refine ⟨_, hload frame ram, fun j hj => ?_⟩
      rw [update_self, hbytes j hj, hs j hj]
  rw [hshows]
  by_cases hlt : offset.toNat+(va-start) < 2^64
  · refine iff_of_true (fun j hj => ?_) (Or.inl hlt)
    rw [wrap, Nat.mod_eq_of_lt hlt]
  · have hsize := (io node).size_lt
    have ho := offset.toNat_lt
    obtain ⟨-,hend,-⟩ := mmap_inserts h hprivate hm
    have hwrap : wrap (offset.toNat+(va-start)) = offset.toNat+(va-start)-2^64 := by
      rw [wrap]
      omega
    have hzero : ∀ j, fileByte (io node) (offset.toNat+(va-start)+j) = 0 := fun j =>
      if_neg (by omega)
    rw [or_iff_right hlt, hwrap]
    simp only [hzero]

def sevens : BlockIo where
  blockSize := 8
  sizeInBytes := 8
  readBlock b := if b = 0 then some (List.replicate 8 7) else none
  blockSize_pos := by decide
  size_lt := by decide
  sized b block h := by
    split at h
    · rw [← Option.some.inj h, List.length_replicate]
    · cases h

def twoPages : Mappings String := ⟨[⟨0x1000, 0x3000, some "sevens", 2^64-0x1000, false⟩], []⟩

theorem mmap_twoPages : (⟨[], []⟩ : Mappings String).mmap 0xFFFF800000000000 0x2000 0
    (some "sevens") (2^64-0x1000) = (some 0x1000, twoPages) := by decide +kernel

theorem sevens_read : ∀ i < sevens.sizeInBytes, (sevens.byteAt i).isSome := by decide +kernel

theorem file_pages_second :
    ShowsFile (fun _ => sevens) (munmaps 0xFFFF800000000000 twoPages [(0x1000, 1)]) "sevens"
        (2^64-0x1000+(0x2000-0x1000)) 0x2000 ↔
      2^64-0x1000+(0x2000-0x1000) < 2^64 ∨
        ∀ j < 4096, fileByte sevens (2^64-0x1000+(0x2000-0x1000)-2^64+j) = 0 :=
  file_pages_iff String (fun _ => sevens) 0xFFFF800000000000 ⟨[], []⟩ (.init rfl) 0x2000 0 rfl
    "sevens" sevens_read 0xFFFFFFFFFFFFF000 0x1000 twoPages mmap_twoPages [(0x1000, 1)] 0x2000
    (by decide) (by decide) (by decide +kernel)

/-- The second page, at the offset 2^64, shows the start of the file. -/
theorem file_pages_wrapped :
    (⟨[], []⟩ : Mappings String).mmap 0xFFFF800000000000 0x2000 0 (some "sevens")
        (2^64-0x1000) = (some 0x1000, twoPages) ∧
      Mapped (munmaps 0xFFFF800000000000 twoPages [(0x1000, 1)]).vmes 0x2000 ∧
      ¬ ShowsFile (fun _ => sevens) (munmaps 0xFFFF800000000000 twoPages [(0x1000, 1)]) "sevens"
        (2^64-0x1000+(0x2000-0x1000)) 0x2000 := by
  have hleft : munmaps 0xFFFF800000000000 twoPages [(0x1000, 1)] =
      ⟨[⟨0x2000, 0x3000, some "sevens", 0, false⟩], []⟩ := by decide +kernel
  refine ⟨mmap_twoPages, by decide +kernel, fun hs => ?_⟩
  rw [hleft] at hs
  have hreg : Regions (⟨[⟨0x2000, 0x3000, some "sevens", 0, false⟩], []⟩ : Mappings String) := by
    intro vme hv
    rw [List.mem_singleton.mp hv]
    exact ⟨rfl, rfl, rfl, by decide⟩
  obtain ⟨content,hbytes,hload⟩ := @load_backed String _ 0x2000 (fun _ => sevens) "sevens" 0 hreg
    sevens_read rfl (by decide +kernel)
  obtain ⟨ram',heq,hshown⟩ := hs 0 fun _ _ => 0
  rw [hload] at heq
  cases heq
  have hfirst := hshown 0 (by decide)
  rw [update_self, hbytes 0 (by decide)] at hfirst
  exact absurd hfirst (by decide +kernel)

end NetKernel.FilePages
