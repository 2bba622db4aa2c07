import NetKernel.Lib.Layers
import NetKernel.Memory.FilePages
import NetKernel.Memory.UserMemory

/-! `ELF::load`: the segments of a file, mapped, cleared and filled one after the other. -/
namespace NetKernel.ElfLoad
open Blocks (BlockIo littleEndian)
open FilePages (fileByte)
open FlatMemory (fetch fetch_eq_some)
open Frames (Ram)
open Heaps (wrap)
open Layers
open ProgramBreak hiding ProgramHeader load loadSegment
open UserMemory

/-- The fields of the file's header that the loader reads. -/
structure ElfHeader where
  entry : UInt64
  phoff : UInt64
  phentsize : UInt16
  phnum : UInt16
deriving DecidableEq, Repr

structure ProgramHeader extends ProgramBreak.ProgramHeader where
  offset : UInt64
deriving DecidableEq, Repr

def field (xs : List UInt8) (start size : Nat) : Nat := littleEndian ((xs.drop start).take size)

def readElfHeader (d : BlockIo) : Option ElfHeader :=
  (d.readExact 0 64).map fun xs =>
    ⟨.ofNat (field xs 24 8), .ofNat (field xs 32 8), .ofNat (field xs 54 2), .ofNat (field xs 56 2)⟩

def readProgramHeader (d : BlockIo) (hoff : Nat) : Option ProgramHeader :=
  (d.readExact hoff 56).map fun xs =>
    ⟨⟨.ofNat (field xs 0 4), .ofNat (field xs 16 8), .ofNat (field xs 32 8),
      .ofNat (field xs 40 8)⟩, .ofNat (field xs 8 8)⟩

structure Loading where
  ram : Ram
  stock : List Nat
  brk : Nat

def zeroUserRange (root : Nat) (ram : Ram) (start length : Nat) : Option Ram :=
  storeBytes root ram start (List.replicate length 0)

/-- `read_all` into the segment, with 32-bit arguments, and the assertion after it. -/
def fillSegment (d : BlockIo) (root : Nat) (ram : Ram) (phdr : ProgramHeader) : Option Ram :=
  if phdr.filesz = 0 then some ram
  else
    (d.readAll (phdr.offset.toNat % 2^32) (phdr.filesz.toNat % 2^32)).bind fun (n, xs) =>
      (storeBytes root ram phdr.vaddr.toNat xs).bind fun ram =>
        if n = phdr.filesz.toBitVec.toInt then some ram else none

def loadSegment (d : BlockIo) (root : Nat) (s : Loading) (phdr : ProgramHeader) :
    Option Loading :=
  if phdr.type ≠ 1 then some s
  else if phdr.memsz < phdr.filesz then none
  else
    (mapUserRange root phdr.vaddr.toNat phdr.memsz.toNat (s.ram, s.stock)).bind fun (ram, stock) =>
      (zeroUserRange root ram phdr.vaddr.toNat phdr.memsz.toNat).bind fun ram =>
        (fillSegment d root ram phdr).map fun ram =>
          let finish := wrap (phdr.vaddr.toNat+phdr.memsz.toNat)
          ⟨ram, stock, if s.brk < finish then finish else s.brk⟩

/-- The loop over `phnum` headers, with a 32-bit `hoff`. -/
def loadHeaders (d : BlockIo) (root phentsize : Nat) : Nat → Nat → Loading → Option Loading
  | 0, _, s => some s
  | n+1, hoff, s =>
    (readProgramHeader d hoff).bind fun phdr =>
      (loadSegment d root s phdr).bind
        (loadHeaders d root phentsize n ((hoff+phentsize) % 2^32))

/-- `ELF::load`: the entry point, `min_brk`, and the thread afterwards. -/
def load (d : BlockIo) (root : Nat) (s : Loading) : Option (UInt64 × Nat × Loading) :=
  (readElfHeader d).bind fun hdr =>
    (loadHeaders d root hdr.phentsize.toNat hdr.phnum.toNat (hdr.phoff.toNat % 2^32) s).bind fun s =>
      (mapUserRange root brkLimit userStackSize (s.ram, s.stock)).bind fun (ram, stock) =>
        (zeroUserRange root ram brkLimit userStackSize).map fun ram =>
          (hdr.entry, s.brk, ⟨ram, stock, s.brk⟩)

/-! The headers as a list. -/

def programHeaders (d : BlockIo) (phentsize : Nat) : Nat → Nat → Option (List ProgramHeader)
  | 0, _ => some []
  | n+1, hoff =>
    (readProgramHeader d hoff).bind fun phdr =>
      (programHeaders d phentsize n ((hoff+phentsize) % 2^32)).map (phdr :: ·)

def segments (d : BlockIo) : Option (List ProgramHeader) :=
  (readElfHeader d).bind fun hdr =>
    programHeaders d hdr.phentsize.toNat hdr.phnum.toNat (hdr.phoff.toNat % 2^32)

/-- The byte `i` of a segment in the image. -/
def imageByte (d : BlockIo) (seg : ProgramHeader) (i : Nat) : Nat :=
  if i < seg.filesz.toNat then (fileByte d (seg.offset.toNat+i)).toNat else 0

/-- Every loaded segment has its bytes. -/
def Image (d : BlockIo) (segs : List ProgramHeader) (root : Nat) (ram : Ram) : Prop :=
  ∀ seg ∈ segs, seg.type = 1 → ∀ i < seg.memsz.toNat,
    userByte root ram (seg.vaddr.toNat+i) = some (imageByte d seg i)

/-- Nothing is lost of a segment on the pages that a later one maps: what is there is zero. -/
def Spares (d : BlockIo) (seg later : ProgramHeader) : Prop :=
  seg.type = 1 → later.type = 1 → ∀ i < seg.memsz.toNat,
    InPages later.vaddr.toNat later.memsz.toNat (seg.vaddr.toNat+i) → imageByte d seg i = 0

/-- The addresses of a loaded segment, and those of the pages they are in. -/
def bytes (seg : ProgramHeader) : Set Nat :=
  {a | seg.type = 1 ∧ seg.vaddr.toNat ≤ a ∧ a < seg.vaddr.toNat+seg.memsz.toNat}

def pages (seg : ProgramHeader) : Set Nat :=
  {a | seg.type = 1 ∧ InPages seg.vaddr.toNat seg.memsz.toNat a}

/-- A segment with its file range inside the file and its bytes below the stack. -/
structure Fits (d : BlockIo) (seg : ProgramHeader) : Prop where
  filesz : seg.filesz ≤ seg.memsz
  inside : seg.offset.toNat+seg.filesz.toNat ≤ d.sizeInBytes
  low : seg.vaddr.toNat+seg.memsz.toNat ≤ brkLimit

structure Loadable (d : BlockIo) (segs : List ProgramHeader) : Prop where
  fits : ∀ seg ∈ segs, seg.type = 1 → Fits d seg
  apart : segs.Pairwise fun seg later => Disjoint (bytes seg) (bytes later)

variable {d : BlockIo} {root : Nat} {s t : Loading} {seg : ProgramHeader}
  {segs : List ProgramHeader} {ram ram' : Ram} {stock : List Nat}

/-- The colour of a segment's address is its byte in the image. -/
def color (d : BlockIo) (seg : ProgramHeader) (a : Nat) : Nat :=
  imageByte d seg (a-seg.vaddr.toNat)

/-! One segment. -/

theorem UserSpace.zeroUserRange {start length : Nat} (h : UserSpace root (ram, stock))
    (hb : start+length ≤ 2^47) (hs : zeroUserRange root ram start length = some ram') :
    UserSpace root (ram', stock) ∧ ∀ a < 2^47, userByte root ram' a =
      if start ≤ a ∧ a < start+length then some 0 else userByte root ram a := by
  have hlen : (List.replicate length (0 : UInt8)).length = length := List.length_replicate
  obtain ⟨h',hbytes⟩ := h.storeBytes (hlen.symm ▸ hb) hs
  refine ⟨h', fun a ha => ?_⟩
  rw [hbytes a ha, hlen]
  split
  · rw [List.getElem?_replicate]
    split <;> rfl
  · rfl

theorem fillSegment_reads (hf : Fits d seg) (hs : fillSegment d root ram seg = some ram') :
    ∃ xs, fetch d.byteAt seg.offset.toNat seg.filesz.toNat = some xs ∧
      storeBytes root ram seg.vaddr.toNat xs = some ram' := by
  have hsize := d.size_lt
  have hinside := hf.inside
  unfold fillSegment at hs
  split at hs
  · rename_i hzero
    cases hs
    exact ⟨[], by rw [hzero]; rfl, rfl⟩
  · obtain ⟨⟨n,xs⟩,hread,hs⟩ := Option.bind_eq_some_iff.mp hs
    obtain ⟨ram₁,hstore,hs⟩ := Option.bind_eq_some_iff.mp hs
    have hram : ram₁ = ram' := by
      split at hs
      · exact Option.some.inj hs
      · cases hs
    rw [Nat.mod_eq_of_lt (by omega), Nat.mod_eq_of_lt (by omega), Blocks.readAll_eq (by omega),
      Nat.min_eq_left (by omega)] at hread
    obtain ⟨ys,hfetch,hpair⟩ := Option.map_eq_some_iff.mp hread
    cases hpair
    exact ⟨xs, hfetch, hram ▸ hstore⟩

theorem UserSpace.fillSegment (h : UserSpace root (ram, stock)) (hf : Fits d seg)
    (hs : fillSegment d root ram seg = some ram') :
    UserSpace root (ram', stock) ∧ ∀ a < 2^47, userByte root ram' a =
      if seg.vaddr.toNat ≤ a ∧ a < seg.vaddr.toNat+seg.filesz.toNat then
        some (fileByte d (seg.offset.toNat+(a-seg.vaddr.toNat))).toNat
      else userByte root ram a := by
  obtain ⟨xs,hfetch,hstore⟩ := fillSegment_reads hf hs
  obtain ⟨hlen,hxs⟩ := fetch_eq_some.mp hfetch
  have hle : seg.filesz.toNat ≤ seg.memsz.toNat := hf.filesz
  have hlow := hf.low
  have hinside := hf.inside
  have hlimit : brkLimit ≤ 2^47 := by decide
  obtain ⟨h',hbytes⟩ := h.storeBytes (by omega) hstore
  refine ⟨h', fun a ha => ?_⟩
  rw [hbytes a ha, hlen]
  split
  · rename_i hin
    rw [fileByte, if_pos (by omega), hxs _ (by omega)]
  · rfl

theorem loadSegment_paints (h : UserSpace root (s.ram, s.stock)) (hf : seg.type = 1 → Fits d seg)
    (hs : loadSegment d root s seg = some t) : UserSpace root (t.ram, t.stock) ∧
      ∀ a < 2^47, userByte root t.ram a =
        paint pages bytes (color d) 0 (userByte root s.ram) seg a := by
  unfold loadSegment at hs
  split at hs
  · rename_i ht
    cases hs
    refine ⟨h, fun a _ => ?_⟩
    rw [paint, if_neg fun hm => ht hm.1, if_neg fun hm => ht hm.1]
  rename_i ht
  have ht : seg.type = 1 := not_not.mp ht
  have hf := hf ht
  have hlow : seg.vaddr.toNat+seg.memsz.toNat ≤ 2^47 := hf.low.trans (by decide)
  have hle : seg.filesz.toNat ≤ seg.memsz.toNat := hf.filesz
  split at hs
  · cases hs
  obtain ⟨⟨ram₁,stock₁⟩,hmap,hs⟩ := Option.bind_eq_some_iff.mp hs
  obtain ⟨ram₂,hzero,hs⟩ := Option.bind_eq_some_iff.mp hs
  obtain ⟨ram₃,hfill,rfl⟩ := Option.map_eq_some_iff.mp hs
  obtain ⟨h₁,hbyte₁⟩ := h.mapUserRange hlow hmap
  obtain ⟨h₂,hbyte₂⟩ := UserSpace.zeroUserRange h₁ hlow hzero
  obtain ⟨h₃,hbyte₃⟩ := UserSpace.fillSegment h₂ hf hfill
  refine ⟨h₃, fun a ha => ?_⟩
  change userByte root ram₃ a = _
  have hpages : a ∈ pages seg ↔ InPages seg.vaddr.toNat seg.memsz.toNat a := and_iff_right ht
  have hbytes : a ∈ bytes seg ↔
      seg.vaddr.toNat ≤ a ∧ a < seg.vaddr.toNat+seg.memsz.toNat := and_iff_right ht
  rw [hbyte₃ a ha, hbyte₂ a ha, hbyte₁ a ha, paint]
  simp only [hpages, hbytes, color, imageByte]
  by_cases hin : seg.vaddr.toNat ≤ a ∧ a < seg.vaddr.toNat+seg.memsz.toNat
  · rw [if_pos hin, if_pos hin]
    by_cases hfile : a < seg.vaddr.toNat+seg.filesz.toNat
    · rw [if_pos ⟨hin.1, hfile⟩, if_pos (by omega)]
    · rw [if_neg (by omega), if_neg (by omega)]
  · rw [if_neg hin, if_neg hin, if_neg (by omega)]

theorem loadSegments_paint (h : UserSpace root (s.ram, s.stock))
    (hf : ∀ seg ∈ segs, seg.type = 1 → Fits d seg)
    (hs : segs.foldlM (loadSegment d root) s = some t) : UserSpace root (t.ram, t.stock) ∧
      ∀ a < 2^47, userByte root t.ram a =
        segs.foldl (paint pages bytes (color d) 0) (userByte root s.ram) a := by
  induction segs generalizing s with
  | nil =>
    cases hs
    exact ⟨h, fun _ _ => rfl⟩
  | cons seg segs ih =>
    rw [List.foldlM_cons] at hs
    obtain ⟨s₁,hs₁,hs⟩ := Option.bind_eq_some_iff.mp hs
    obtain ⟨h₁,hone⟩ := loadSegment_paints h (hf seg List.mem_cons_self) hs₁
    obtain ⟨h',hrest⟩ := ih h₁ (fun p hp => hf p (List.mem_cons_of_mem _ hp)) hs
    refine ⟨h', fun a ha => ?_⟩
    rw [hrest a ha, List.foldl_cons]
    exact foldl_paint_congr (hone a ha)

/-! The loop of the source, and the list. -/

theorem loadHeaders_eq {phentsize n hoff : Nat} : loadHeaders d root phentsize n hoff s =
    (programHeaders d phentsize n hoff).bind fun segs => segs.foldlM (loadSegment d root) s := by
  induction n generalizing hoff s with
  | zero => rfl
  | succ n ih =>
    rw [loadHeaders, programHeaders, Option.bind_assoc]
    refine Option.bind_congr fun phdr _ => ?_
    rw [Option.bind_map]
    simp only [Function.comp_def, List.foldlM_cons]
    have hih : loadHeaders d root phentsize n ((hoff+phentsize) % 2^32) = fun s =>
        (programHeaders d phentsize n ((hoff+phentsize) % 2^32)).bind fun segs =>
          segs.foldlM (loadSegment d root) s := funext fun s => ih
    rw [hih]
    cases programHeaders d phentsize n ((hoff+phentsize) % 2^32) with
    | none => cases loadSegment d root s phdr <;> rfl
    | some segs => rfl

theorem load_some {entry : UInt64} {minBrk : Nat} (hsegs : segments d = some segs)
    (hload : load d root s = some (entry, minBrk, t)) :
    ∃ s₁ ram stock, segs.foldlM (loadSegment d root) s = some s₁ ∧
      mapUserRange root brkLimit userStackSize (s₁.ram, s₁.stock) = some (ram, stock) ∧
      zeroUserRange root ram brkLimit userStackSize = some t.ram ∧ t.stock = stock := by
  obtain ⟨hdr,hhdr,hload⟩ := Option.bind_eq_some_iff.mp hload
  rw [segments, hhdr, Option.bind_some] at hsegs
  rw [loadHeaders_eq, hsegs, Option.bind_some] at hload
  obtain ⟨s₁,hs₁,hload⟩ := Option.bind_eq_some_iff.mp hload
  obtain ⟨⟨ram,stock⟩,hmap,hload⟩ := Option.bind_eq_some_iff.mp hload
  obtain ⟨ram',hzero,heq⟩ := Option.map_eq_some_iff.mp hload
  cases heq
  exact ⟨s₁, ram, stock, hs₁, hmap, hzero, rfl⟩

theorem load_paints {entry : UInt64} {minBrk : Nat} (hsegs : segments d = some segs)
    (hf : ∀ seg ∈ segs, seg.type = 1 → Fits d seg) (h : UserSpace root (s.ram, s.stock))
    (hload : load d root s = some (entry, minBrk, t)) : ∀ a < brkLimit, userByte root t.ram a =
      segs.foldl (paint pages bytes (color d) 0) (userByte root s.ram) a := by
  obtain ⟨s₁,ram,stock,hs₁,hmap,hzero,-⟩ := load_some hsegs hload
  have hstack : brkLimit+userStackSize ≤ 2^47 := by decide
  obtain ⟨h₁,hpainted⟩ := loadSegments_paint h hf hs₁
  obtain ⟨h₂,hmapped⟩ := h₁.mapUserRange hstack hmap
  obtain ⟨-,hcleared⟩ := UserSpace.zeroUserRange h₂ hstack hzero
  intro a ha
  have hlow : a < 2^47 := by omega
  have hout : ¬InPages brkLimit userStackSize a := by
    have hdown : alignDown brkLimit = brkLimit := by decide
    rintro ⟨-,hge,-⟩
    omega
  rw [hcleared a hlow, if_neg (by omega), hmapped a hlow, if_neg hout, hpainted a hlow]

theorem image_iff (hf : ∀ seg ∈ segs, seg.type = 1 → Fits d seg) {picture : Nat → Option Nat}
    (hram : ∀ a < brkLimit, userByte root ram a =
      segs.foldl (paint pages bytes (color d) 0) picture a) :
    Image d segs root ram ↔ ∀ seg ∈ segs, ∀ a ∈ bytes seg,
      segs.foldl (paint pages bytes (color d) 0) picture a = some (color d seg a) := by
  constructor
  · intro h seg hm a hin
    obtain ⟨ht,hge,hlt⟩ := hin
    have hlow := (hf seg hm ht).low
    have hbyte := h seg hm ht (a-seg.vaddr.toNat) (by omega)
    rw [Nat.add_sub_cancel' hge, hram a (by omega)] at hbyte
    exact hbyte
  · intro h seg hm ht i hi
    have hlow := (hf seg hm ht).low
    rw [hram _ (by omega), h seg hm _ ⟨ht, Nat.le_add_right _ _, by omega⟩, color,
      Nat.add_sub_cancel_left]

theorem hides_iff {later : ProgramHeader} :
    Hides pages bytes (color d) 0 seg later ↔ Spares d seg later := by
  constructor
  · intro h ht hl i hi hin
    have hcolor := h _ ⟨ht, Nat.le_add_right _ _, by omega⟩ ⟨hl, hin⟩
    rwa [color, Nat.add_sub_cancel_left] at hcolor
  · rintro h a ⟨ht,hge,hlt⟩ ⟨hl,hin⟩
    refine h ht hl (a-seg.vaddr.toNat) (by omega) ?_
    rwa [Nat.add_sub_cancel' hge]

/-! Four frames a page are enough for the load. -/

def frames (seg : ProgramHeader) : Nat :=
  if seg.type = 1 then
    (alignUp (seg.vaddr.toNat+seg.memsz.toNat)-alignDown seg.vaddr.toNat)/1024
  else 0

/-- No block of the file trips an assertion. -/
def Readable (d : BlockIo) : Prop := ∀ i < d.sizeInBytes, (d.byteAt i).isSome

theorem fillSegment_isSome (h : UserSpace root (ram, stock)) (hf : Fits d seg) (hd : Readable d)
    (hmapped : ∀ a, seg.vaddr.toNat ≤ a → a < seg.vaddr.toNat+seg.memsz.toNat →
      (userByte root ram a).isSome) : ∃ ram', fillSegment d root ram seg = some ram' := by
  have hsize := d.size_lt
  have hinside := hf.inside
  have hle : seg.filesz.toNat ≤ seg.memsz.toNat := hf.filesz
  have hlow : seg.vaddr.toNat+seg.memsz.toNat ≤ 2^47 := hf.low.trans (by decide)
  by_cases hzero : seg.filesz = 0
  · exact ⟨ram, if_pos hzero⟩
  have hfetch : ∃ xs, fetch d.byteAt seg.offset.toNat seg.filesz.toNat = some xs := by
    refine Option.ne_none_iff_exists'.mp fun hnone => ?_
    obtain ⟨i,hi,hbyte⟩ := FlatMemory.fetch_eq_none.mp hnone
    have hsome := hd (seg.offset.toNat+i) (by omega)
    rw [hbyte] at hsome
    cases hsome
  obtain ⟨xs,hxs⟩ := hfetch
  have hlen := (fetch_eq_some.mp hxs).1
  have hstores : ∃ ram', storeBytes root ram seg.vaddr.toNat xs = some ram' :=
    h.storeBytes_isSome (by omega) fun a hge hlt => hmapped a hge (by omega)
  obtain ⟨ram',hstore⟩ := hstores
  have hint : seg.filesz.toBitVec.toInt = (seg.filesz.toNat : Int) :=
    BitVec.toInt_eq_toNat_of_lt (by change 2*seg.filesz.toNat < 2^64; omega)
  refine ⟨ram', ?_⟩
  rw [fillSegment, if_neg hzero, Nat.mod_eq_of_lt (by omega), Nat.mod_eq_of_lt (by omega),
    Blocks.readAll_eq (by omega), Nat.min_eq_left (by omega), hxs, Option.map_some,
    Option.bind_some]
  simp only [hstore, Option.bind_some, hint, if_true]

theorem mapZero_isSome {start length : Nat} (h : UserSpace root (ram, stock))
    (hb : start+length ≤ userStackTop)
    (hlen : (alignUp (start+length)-alignDown start)/1024 ≤ stock.length) :
    ∃ ram₁ stock₁ ram₂, mapUserRange root start length (ram, stock) = some (ram₁, stock₁) ∧
      zeroUserRange root ram₁ start length = some ram₂ ∧ UserSpace root (ram₂, stock₁) ∧
      stock.length ≤ stock₁.length+(alignUp (start+length)-alignDown start)/1024 ∧
      ∀ a, start ≤ a → a < start+length → (userByte root ram₂ a).isSome := by
  have htop : userStackTop ≤ 2^47 := by decide
  have hlow : start+length ≤ 2^47 := by omega
  obtain ⟨⟨ram₁,stock₁⟩,hmap,hleft⟩ := mapUserRange_isSome root (ram, stock) hb hlen
  obtain ⟨h₁,hbyte₁⟩ := h.mapUserRange hlow hmap
  have hsize : (List.replicate length (0 : UInt8)).length = length := List.length_replicate
  have hstores : ∃ ram₂, zeroUserRange root ram₁ start length = some ram₂ := by
    refine h₁.storeBytes_isSome (hsize.symm ▸ hlow) fun a hge hlt => ?_
    rw [hsize] at hlt
    rw [hbyte₁ a (by omega), if_pos (inPages_of_mem hlow hge hlt)]
    rfl
  obtain ⟨ram₂,hzero⟩ := hstores
  obtain ⟨h₂,hbyte₂⟩ := UserSpace.zeroUserRange h₁ hlow hzero
  refine ⟨ram₁, stock₁, ram₂, hmap, hzero, h₂, hleft, fun a hge hlt => ?_⟩
  rw [hbyte₂ a (by omega), if_pos ⟨hge, hlt⟩]
  rfl

theorem loadSegment_isSome (h : UserSpace root (s.ram, s.stock)) (hd : Readable d)
    (hf : seg.type = 1 → Fits d seg) (hlen : frames seg ≤ s.stock.length) :
    ∃ t, loadSegment d root s seg = some t ∧ s.stock.length ≤ t.stock.length+frames seg := by
  by_cases ht : seg.type = 1
  · have hf := hf ht
    have htop : brkLimit ≤ userStackTop := by decide
    rw [frames, if_pos ht] at hlen ⊢
    obtain ⟨ram₁,stock₁,ram₂,hmap,hzero,h₂,hleft,hmapped⟩ :=
      mapZero_isSome h (hf.low.trans htop) hlen
    obtain ⟨ram₃,hfill⟩ := fillSegment_isSome h₂ hf hd hmapped
    have hdone : loadSegment d root s seg = some ⟨ram₃, stock₁,
        if s.brk < wrap (seg.vaddr.toNat+seg.memsz.toNat) then
          wrap (seg.vaddr.toNat+seg.memsz.toNat) else s.brk⟩ := by
      rw [loadSegment, if_neg (not_not.mpr ht), if_neg (UInt64.not_lt.mpr hf.filesz), hmap,
        Option.bind_some]
      simp only [hzero, Option.bind_some, hfill, Option.map_some]
    exact ⟨_, hdone, hleft⟩
  · exact ⟨s, if_pos ht, Nat.le_add_right _ _⟩

theorem loadSegments_isSome (h : UserSpace root (s.ram, s.stock)) (hd : Readable d)
    (hf : ∀ seg ∈ segs, seg.type = 1 → Fits d seg)
    (hlen : (segs.map frames).sum ≤ s.stock.length) :
    ∃ t, segs.foldlM (loadSegment d root) s = some t ∧
      s.stock.length ≤ t.stock.length+(segs.map frames).sum := by
  induction segs generalizing s with
  | nil => exact ⟨s, rfl, Nat.le_refl _⟩
  | cons seg segs ih =>
    rw [List.map_cons, List.sum_cons] at hlen ⊢
    have hseg := hf seg List.mem_cons_self
    obtain ⟨s₁,hs₁,hleft₁⟩ := loadSegment_isSome h hd hseg (by omega)
    have h₁ := (loadSegment_paints h hseg hs₁).1
    obtain ⟨t,ht,hleft⟩ := ih h₁ (fun p hp => hf p (List.mem_cons_of_mem _ hp)) (by omega)
    refine ⟨t, ?_, by omega⟩
    rw [List.foldlM_cons, hs₁]
    exact ht

theorem load_isSome (hsegs : segments d = some segs) (h : UserSpace root (s.ram, s.stock))
    (hd : Readable d) (hf : ∀ seg ∈ segs, seg.type = 1 → Fits d seg)
    (hlen : (segs.map frames).sum+userStackSize/1024 ≤ s.stock.length) :
    ∃ r, load d root s = some r := by
  obtain ⟨hdr,hhdr,hheaders⟩ := Option.bind_eq_some_iff.mp hsegs
  obtain ⟨s₁,hs₁,hleft⟩ := loadSegments_isSome h hd hf (by omega)
  have h₁ := (loadSegments_paint h hf hs₁).1
  have hstack : brkLimit+userStackSize ≤ userStackTop := by decide
  have hsize : (alignUp (brkLimit+userStackSize)-alignDown brkLimit)/1024 =
      userStackSize/1024 := by decide
  obtain ⟨ram₁,stock₁,ram₂,hmap,hzero,-⟩ := mapZero_isSome h₁ hstack (by omega)
  refine ⟨(hdr.entry, s₁.brk, ⟨ram₂, stock₁, s₁.brk⟩), ?_⟩
  rw [load, hhdr, Option.bind_some, loadHeaders_eq, hheaders, Option.bind_some, hs₁,
    Option.bind_some, hmap, Option.bind_some]
  simp only [hzero, Option.map_some]

/-- The image after a load is what the file says exactly when every segment is spared. -/
theorem image_iff_spares (hsegs : segments d = some segs) (hl : Loadable d segs)
    (h : UserSpace root (s.ram, s.stock)) {entry : UInt64} {minBrk : Nat}
    (hload : load d root s = some (entry, minBrk, t)) :
    Image d segs root t.ram ↔ segs.Pairwise (Spares d) := by
  rw [image_iff hl.fits (load_paints hsegs hl.fits h hload), painted_iff hl.apart]
  exact List.Pairwise.iff fun _ _ => hides_iff

/-- With frames enough the load comes to its end; the image is then what the file says
exactly when no segment has a byte other than 0 on a page that a later one maps again. -/
theorem load_image_iff (d : BlockIo) (segs : List ProgramHeader) (hsegs : segments d = some segs)
    (hl : Loadable d segs) (root : Nat) (s : Loading) (h : UserSpace root (s.ram, s.stock)) :
    (Readable d → (segs.map frames).sum+userStackSize/1024 ≤ s.stock.length →
      ∃ r, load d root s = some r) ∧
    ∀ entry minBrk t, load d root s = some (entry, minBrk, t) →
      (Image d segs root t.ram ↔ segs.Pairwise (Spares d)) :=
  ⟨fun hd hlen => load_isSome hsegs h hd hl.fits hlen,
    fun _ _ _ hload => image_iff_spares hsegs hl h hload⟩

/-! A file with two segments of one byte, its first. -/

def digits (n size : Nat) : List UInt8 := (List.range size).map fun i => .ofNat (n / 256^i)

def oneByteHeader (vaddr : Nat) : List UInt8 :=
  digits 1 4 ++ digits 5 4 ++ digits 0 8 ++ digits vaddr 8 ++ digits vaddr 8 ++ digits 1 8 ++
    digits 1 8 ++ digits 4096 8

def elfBytes (second : UInt64) : List UInt8 :=
  [0x7f, 0x45, 0x4c, 0x46] ++ digits 0 20 ++ digits 0x400000 8 ++ digits 64 8 ++ digits 0 14 ++
    digits 56 2 ++ digits 2 2 ++ digits 0 6 ++ oneByteHeader 0x400000 ++
      oneByteHeader second.toNat

theorem length_elfBytes (second : UInt64) : (elfBytes second).length = 176 := by
  simp [elfBytes, oneByteHeader, digits]

def elfFile (second : UInt64) : BlockIo where
  blockSize := 176
  sizeInBytes := 176
  readBlock b := if b = 0 then some (elfBytes second) else none
  blockSize_pos := by decide
  size_lt := by decide
  sized b block h := by
    split at h
    · cases h
      exact length_elfBytes second
    · cases h

def oneByte (vaddr : UInt64) : ProgramHeader := ⟨⟨1, vaddr, 1, 1⟩, 0⟩

theorem elfFile_segments :
    segments (elfFile 0x400800) = some [oneByte 0x400000, oneByte 0x400800] ∧
      segments (elfFile 0x401000) = some [oneByte 0x400000, oneByte 0x401000] := by
  decide +kernel

theorem elfFile_readable (second : UInt64) : Readable (elfFile second) := by
  intro i hi
  have hlt : i < 176 := hi
  have hblock : (elfFile second).byteAt i = (elfBytes second)[i % 176]? := by
    change ((if i / 176 = 0 then some (elfBytes second) else none).bind fun block =>
      block[i % 176]?) = _
    rw [if_pos (Nat.div_eq_of_lt hlt), Option.bind_some]
  rw [hblock, Nat.mod_eq_of_lt hlt, List.getElem?_eq_getElem (by rw [length_elfBytes]; exact hlt)]
  rfl

theorem elfFile_loadable {second : UInt64} (hlo : 0x400000 < second.toNat)
    (hhi : second.toNat < brkLimit) :
    Loadable (elfFile second) [oneByte 0x400000, oneByte second] := by
  have hone : (0 : UInt64).toNat+(1 : UInt64).toNat ≤ 176 := by decide
  refine ⟨fun seg hm _ => ?_, ?_⟩
  · have hfit (vaddr : UInt64) (hv : vaddr.toNat < brkLimit) :
        Fits (elfFile second) (oneByte vaddr) := ⟨UInt64.le_refl 1, hone, hv⟩
    obtain rfl | hm := List.mem_cons.mp hm
    · exact hfit _ (by decide)
    · rw [List.mem_singleton.mp hm]
      exact hfit _ hhi
  · refine List.pairwise_pair.mpr (Set.disjoint_left.mpr fun a hfirst hsecond => ?_)
    have hlt : a < 0x400000+1 := hfirst.2.2
    have hge : second.toNat ≤ a := hsecond.2.1
    omega

theorem fresh_thread : ∃ root s, UserSpace root (Loading.ram s, s.stock) ∧ 72 ≤ s.stock.length := by
  have hframes : ∃ frames : List Nat, frames.length = 72 ∧ (1 :: frames).Nodup ∧
      ∀ f ∈ 1 :: frames, f < 2^36 := by
    refine ⟨List.range' 2 72, List.length_range', List.nodup_range' (s := 1) (n := 73), ?_⟩
    intro f hf
    have hf : f ∈ List.range' 1 73 := hf
    have := List.mem_range'_1.mp hf
    omega
  obtain ⟨frames,hlen,hn,hsmall⟩ := hframes
  have hinit : ∃ space : AddressSpaces.Space Empty,
      AddressSpaces.initThread 0 (fun _ _ => 0) (1 :: frames) ⟨[], []⟩ = some space ∧
        space.stock = frames := ⟨_, rfl, rfl⟩
  obtain ⟨space,hs,hstock⟩ := hinit
  exact ⟨space.root, ⟨space.ram, space.stock, 4096⟩, userSpace_initThread hn hsmall hs,
    by rw [hstock, hlen]⟩

theorem elfFile_frames :
    ([oneByte 0x400000, oneByte 0x400800].map frames).sum+userStackSize/1024 ≤ 72 ∧
      ([oneByte 0x400000, oneByte 0x401000].map frames).sum+userStackSize/1024 ≤ 72 := by
  decide

theorem elfFile_spares :
    ¬[oneByte 0x400000, oneByte 0x400800].Pairwise (Spares (elfFile 0x400800)) ∧
      [oneByte 0x400000, oneByte 0x401000].Pairwise (Spares (elfFile 0x401000)) := by
  constructor
  · intro h
    have hin : InPages 0x400800 1 0x400000 := by decide
    have hlost := List.pairwise_pair.mp h rfl rfl 0 (by decide) hin
    revert hlost
    decide +kernel
  · refine List.pairwise_pair.mpr fun _ _ i hi hin => ?_
    have hi : i < 1 := hi
    have hdown : alignDown 0x401000 = 0x401000 := by decide
    have hge : alignDown 0x401000 ≤ 0x400000+i := hin.2.1
    omega

theorem load_image_files :
    (∃ root s r, load (elfFile 0x401000) root s = some r ∧
      Image (elfFile 0x401000) [oneByte 0x400000, oneByte 0x401000] root r.2.2.ram) ∧
    ∃ root s r, load (elfFile 0x400800) root s = some r ∧
      ¬Image (elfFile 0x400800) [oneByte 0x400000, oneByte 0x400800] root r.2.2.ram := by
  obtain ⟨root,s,h,hlen⟩ := fresh_thread
  constructor
  · obtain ⟨hends,himage⟩ := load_image_iff (elfFile 0x401000) _ elfFile_segments.2
      (elfFile_loadable (by decide) (by decide)) root s h
    obtain ⟨r,hr⟩ := hends (elfFile_readable _) (elfFile_frames.2.trans hlen)
    exact ⟨root, s, r, hr, (himage _ _ _ hr).mpr elfFile_spares.2⟩
  · obtain ⟨hends,himage⟩ := load_image_iff (elfFile 0x400800) _ elfFile_segments.1
      (elfFile_loadable (by decide) (by decide)) root s h
    obtain ⟨r,hr⟩ := hends (elfFile_readable _) (elfFile_frames.1.trans hlen)
    exact ⟨root, s, r, hr, fun hi => elfFile_spares.1 ((himage _ _ _ hr).mp hi)⟩

/-- The page at `0x400000` is mapped again for `0x400800`, and its first byte is lost. -/
theorem load_loses_byte :
    segments (elfFile 0x400800) = some [oneByte 0x400000, oneByte 0x400800] ∧
    Loadable (elfFile 0x400800) [oneByte 0x400000, oneByte 0x400800] ∧
    ∃ root s entry minBrk t, UserSpace root (Loading.ram s, s.stock) ∧
      load (elfFile 0x400800) root s = some (entry, minBrk, t) ∧
        ¬Image (elfFile 0x400800) [oneByte 0x400000, oneByte 0x400800] root t.ram := by
  obtain ⟨root,s,h,hlen⟩ := fresh_thread
  have hl : Loadable (elfFile 0x400800) [oneByte 0x400000, oneByte 0x400800] :=
    elfFile_loadable (by decide) (by decide)
  obtain ⟨⟨entry,minBrk,t⟩,hr⟩ := load_isSome elfFile_segments.1 h (elfFile_readable _) hl.fits
    (elfFile_frames.1.trans hlen)
  refine ⟨elfFile_segments.1, hl, root, s, entry, minBrk, t, h, hr, fun hi => ?_⟩
  exact elfFile_spares.1 ((image_iff_spares elfFile_segments.1 hl h hr).mp hi)

end NetKernel.ElfLoad
