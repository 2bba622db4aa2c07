import NetKernel.Files.BlockIo

/-! Files of an ext2 image on the ram disk: direct and single-indirect blocks, and the
bytes `read_all` delivers. -/
namespace NetKernel.Ext2
open FlatMemory Blocks

/-- `mod->size`, and the memory from `mod->address` on. -/
structure RamDisk where
  size : Nat
  bytes : Nat → UInt8

def RamDisk.sizeInBytes (disk : RamDisk) : Nat := disk.size % 2^32

def RamDisk.readBlock (disk : RamDisk) (block : Nat) : Option (List UInt8) :=
  if block < BlockIo.sizeInBlocks disk.sizeInBytes 512 then
    some (load disk.bytes (512*block % 2^32) 512)
  else none

def RamDisk.blockIo (disk : RamDisk) : BlockIo where
  blockSize := 512
  sizeInBytes := disk.sizeInBytes
  readBlock := disk.readBlock
  blockSize_pos := by decide
  size_lt := Nat.mod_lt _ (by decide)
  sized b block h := by
    rw [RamDisk.readBlock] at h
    split at h
    · rw [← Option.some.inj h, length_load]
    · cases h

/-- The fields of `NodeData` that reading a file looks at. -/
structure NodeData where
  sizeLow : UInt32
  nSectors : UInt32
  direct : Nat → UInt32
  indirect1 : UInt32

/-- A block size is `1 << (log_block_size + 10)`. -/
structure Node where
  logBlockSize : Nat
  log_lt : logBlockSize+10 < 32
  data : NodeData
  device : BlockIo

def Node.blockSize (nd : Node) : Nat := 2^(nd.logBlockSize+10)

/-- The block the file's pointers give, and a panic beyond the single-indirect ones. -/
def Node.blockIndex (nd : Node) (index : Nat) : Option Nat :=
  let refsPerBlock := nd.blockSize / 4
  if index < 12 then some (nd.data.direct index).toNat
  else if index < 12+refsPerBlock then
    nd.device.readUInt32 ((nd.data.indirect1.toNat*nd.blockSize+(index-12)*4) % 2^32)
  else none

def Node.readBlock (nd : Node) (index : Nat) : Option (List UInt8) := do
  guard (index < nd.data.nSectors.toNat / (nd.blockSize / 512))
  let blockIndex ← nd.blockIndex index
  nd.device.readExact (blockIndex*nd.blockSize % 2^32) nd.blockSize

variable {disk : RamDisk} {nd : Node} {offset n b i : Nat}

theorem Node.blockSize_pos (nd : Node) : 0 < nd.blockSize := Nat.two_pow_pos _

theorem length_readExact {d : BlockIo} {xs : List UInt8} (hn : 0 < n)
    (h : d.readExact offset n = some xs) : xs.length = n := by
  rw [readExact_eq hn] at h
  split at h
  · exact (fetch_eq_some.mp h).1
  · cases h

def Node.blockIo (nd : Node) : BlockIo where
  blockSize := nd.blockSize
  sizeInBytes := nd.data.sizeLow.toNat
  readBlock := nd.readBlock
  blockSize_pos := nd.blockSize_pos
  size_lt := nd.data.sizeLow.toNat_lt
  sized b block h := by
    obtain ⟨_,-,h⟩ := Option.bind_eq_some_iff.mp h
    obtain ⟨_,-,h⟩ := Option.bind_eq_some_iff.mp h
    exact length_readExact nd.blockSize_pos h

/-! An image, and what its files hold. -/

/-- A ram disk and the block size its superblock gives. -/
structure Image where
  disk : RamDisk
  logBlockSize : Nat
  log_lt : logBlockSize+10 < 32

def Image.blockSize (img : Image) : Nat := 2^(img.logBlockSize+10)

def Image.node (img : Image) (data : NodeData) : Node :=
  ⟨img.logBlockSize, img.log_lt, data, img.disk.blockIo⟩

def Image.word (img : Image) (a : Nat) : Nat := littleEndian (load img.disk.bytes a 4)

/-- The block that holds block `b` of a file, 0 for a hole. -/
def Image.pointer (img : Image) (data : NodeData) (b : Nat) : Nat :=
  if b < 12 then (data.direct b).toNat
  else if data.indirect1.toNat = 0 then 0
  else img.word (data.indirect1.toNat*img.blockSize+(b-12)*4)

/-- A whole block of the device. -/
def Image.Inside (img : Image) (p : Nat) : Prop :=
  p*img.blockSize+img.blockSize ≤ img.disk.sizeInBytes

structure WellFormed (img : Image) (data : NodeData) : Prop where
  size : data.sizeLow.toNat ≤ (12+img.blockSize / 4)*img.blockSize
  blocks : ∀ b < 12+img.blockSize / 4, img.pointer data b = 0 ∨ img.Inside (img.pointer data b)
  indirect : data.indirect1.toNat = 0 ∨ img.Inside data.indirect1.toNat

/-- How many blocks the file has on the device, the indirect block with them. -/
def Image.allocated (img : Image) (data : NodeData) : Nat :=
  (List.range 12).countP (fun b => img.pointer data b != 0) +
    if data.indirect1.toNat = 0 then 0
    else 1+(List.range (img.blockSize / 4)).countP (fun b => img.pointer data (12+b) != 0)

/-- `n_sectors` counts the blocks the file has on the device, in sectors. -/
def Accounted (img : Image) (data : NodeData) : Prop :=
  data.nSectors.toNat = img.allocated data*(img.blockSize / 512)

/-- Byte `i` of a file. -/
def Image.contents (img : Image) (data : NodeData) (i : Nat) : UInt8 :=
  if img.pointer data (i / img.blockSize) = 0 then 0
  else img.disk.bytes (img.pointer data (i / img.blockSize)*img.blockSize+i % img.blockSize)

/-! What the code reads in place of a block. -/

/-- The device address of the word for block `b`, in 32-bit arithmetic. -/
def Image.wordAddress (img : Image) (data : NodeData) (b : Nat) : Nat :=
  (data.indirect1.toNat*img.blockSize+(b-12)*4) % 2^32

/-- The block number found for block `b`, also where the indirect block is missing. -/
def Image.reference (img : Image) (data : NodeData) (b : Nat) : Nat :=
  if b < 12 then (data.direct b).toNat else img.word (img.wordAddress data b)

/-- The device address of the block read for block `b`. -/
def Image.start (img : Image) (data : NodeData) (b : Nat) : Nat :=
  img.reference data b*img.blockSize % 2^32

/-- What is read for block `b` lies inside the device. -/
structure Image.Reached (img : Image) (data : NodeData) (b : Nat) : Prop where
  word : 12 ≤ b → img.wordAddress data b+4 ≤ img.disk.sizeInBytes
  block : img.start data b+img.blockSize ≤ img.disk.sizeInBytes

/-- `read_all` serves byte `i`: the size in blocks of the device does not wrap, the block is
within the sector count, and what is read in place of a hole is a zero. -/
structure Image.Served (img : Image) (data : NodeData) (i : Nat) : Prop where
  device : img.disk.sizeInBytes+511 < 2^32
  counted : i / img.blockSize < data.nSectors.toNat / (img.blockSize / 512)
  hole : img.pointer data (i / img.blockSize) = 0 → img.Reached data (i / img.blockSize) ∧
    img.disk.bytes (img.start data (i / img.blockSize)+i % img.blockSize) = 0

/-! The device. -/

theorem sizeInBlocks_iff (hs : offset < disk.sizeInBytes) :
    offset / 512 < BlockIo.sizeInBlocks disk.sizeInBytes 512 ↔
      disk.sizeInBytes+511 < 2^32 := by
  have hlt : disk.sizeInBytes < 2^32 := Nat.mod_lt _ (by decide)
  rw [BlockIo.sizeInBlocks]
  omega

theorem byteAt_disk (hs : offset < disk.sizeInBytes) : disk.blockIo.byteAt offset =
    if disk.sizeInBytes+511 < 2^32 then some (disk.bytes offset) else none := by
  have hlt : disk.sizeInBytes < 2^32 := Nat.mod_lt _ (by decide)
  have hmod : 512*(offset / 512) % 2^32 = 512*(offset / 512) := Nat.mod_eq_of_lt (by omega)
  have hread : disk.blockIo.byteAt offset =
      (disk.readBlock (offset / 512)).bind fun block => block[offset % 512]? := rfl
  rw [hread, RamDisk.readBlock, hmod]
  simp only [sizeInBlocks_iff hs]
  split
  · rw [Option.bind_some, load, List.getElem?_map, List.getElem?_range (Nat.mod_lt _ (by decide)),
      Option.map_some, Nat.div_add_mod]
  · rfl

theorem readExact_disk (hn : 0 < n) : disk.blockIo.readExact offset n =
    if offset+n ≤ disk.sizeInBytes ∧ disk.sizeInBytes+511 < 2^32 then
      some (load disk.bytes offset n)
    else none := by
  rw [readExact_eq hn]
  by_cases hend : offset+n ≤ disk.blockIo.sizeInBytes
  · have hin : offset+n ≤ disk.sizeInBytes := hend
    by_cases hdev : disk.sizeInBytes+511 < 2^32
    · rw [if_pos hend, if_pos ⟨hin, hdev⟩]
      refine fetch_eq_load.mpr fun i hi => ?_
      rw [byteAt_disk (by omega), if_pos hdev]
    · rw [if_pos hend, if_neg fun h => hdev h.2]
      refine fetch_eq_none.mpr ⟨0, hn, ?_⟩
      rw [byteAt_disk (by omega), if_neg hdev]
  · rw [if_neg hend, if_neg fun h => hend h.1]

/-! The blocks of a file. -/

variable {img : Image} {data : NodeData}

theorem Image.blockSize_pos (img : Image) : 0 < img.blockSize := Nat.two_pow_pos _

theorem blockIndex_image (hb : b < 12+img.blockSize / 4)
    (hdev : img.disk.sizeInBytes+511 < 2^32) : (img.node data).blockIndex b =
      if 12 ≤ b ∧ img.disk.sizeInBytes < img.wordAddress data b+4 then none
      else some (img.reference data b) := by
  have hsize : (img.node data).blockSize = img.blockSize := rfl
  rw [Node.blockIndex, Image.reference]
  by_cases hdirect : b < 12
  · rw [if_pos hdirect, if_pos hdirect, if_neg (by omega)]
    rfl
  · rw [if_neg hdirect, if_neg hdirect, hsize, if_pos hb]
    have hread : (img.node data).device.readExact (img.wordAddress data b) 4 = _ :=
      readExact_disk (by decide)
    change ((img.node data).device.readExact (img.wordAddress data b) 4).map littleEndian = _
    rw [hread]
    by_cases hin : img.wordAddress data b+4 ≤ img.disk.sizeInBytes
    · rw [if_pos ⟨hin, hdev⟩, if_neg (by omega)]
      rfl
    · rw [if_neg fun h => hin h.1, if_pos (by omega)]
      rfl

theorem readBlock_image (hb : b < 12+img.blockSize / 4) {block : List UInt8} :
    (img.node data).readBlock b = some block ↔
      (b < data.nSectors.toNat / (img.blockSize / 512) ∧ img.disk.sizeInBytes+511 < 2^32 ∧
        img.Reached data b) ∧ block = load img.disk.bytes (img.start data b) img.blockSize := by
  have hexact (k : Nat) : (img.node data).device.readExact (k*img.blockSize % 2^32) img.blockSize =
      _ := readExact_disk img.blockSize_pos
  constructor
  · intro h
    obtain ⟨_,hguard,h⟩ := Option.bind_eq_some_iff.mp h
    obtain ⟨k,hk,h⟩ := Option.bind_eq_some_iff.mp h
    rw [show (img.node data).blockSize = img.blockSize from rfl, hexact] at h
    split at h
    · rename_i hin
      have hcounted : b < data.nSectors.toNat / (img.blockSize / 512) := by
        by_contra hc
        have hfail : (guard (b < data.nSectors.toNat / (img.blockSize / 512)) : Option Unit) =
            none := if_neg hc
        exact Option.some_ne_none _ (hguard.symm.trans hfail)
      rw [blockIndex_image hb hin.2] at hk
      split at hk
      · cases hk
      · rename_i hword
        cases hk
        exact ⟨⟨hcounted, hin.2, ⟨fun h12 => by omega, hin.1⟩⟩, (Option.some.inj h).symm⟩
    · cases h
  · rintro ⟨⟨hcounted,hdev,hreach⟩,rfl⟩
    have hword : ¬(12 ≤ b ∧ img.disk.sizeInBytes < img.wordAddress data b+4) := by
      rintro ⟨h12,hlt⟩
      have hin := hreach.word h12
      omega
    have hguard : (guard (b < (img.node data).data.nSectors.toNat /
        ((img.node data).blockSize / 512)) : Option Unit) = some () := if_pos hcounted
    have hindex : (img.node data).blockIndex b = some (img.reference data b) := by
      rw [blockIndex_image hb hdev, if_neg hword]
    have hread := hexact (img.reference data b)
    rw [if_pos ⟨hreach.block, hdev⟩] at hread
    exact Option.bind_eq_some_iff.mpr ⟨(), hguard,
      Option.bind_eq_some_iff.mpr ⟨_, hindex, hread⟩⟩

theorem byteAt_image (hb : i / img.blockSize < 12+img.blockSize / 4) {x : UInt8} :
    (img.node data).blockIo.byteAt i = some x ↔
      (i / img.blockSize < data.nSectors.toNat / (img.blockSize / 512) ∧
        img.disk.sizeInBytes+511 < 2^32 ∧ img.Reached data (i / img.blockSize)) ∧
      x = img.disk.bytes (img.start data (i / img.blockSize)+i % img.blockSize) := by
  have hcell (a : Nat) : (load img.disk.bytes a img.blockSize)[i % img.blockSize]? =
      some (img.disk.bytes (a+i % img.blockSize)) := by
    rw [load, List.getElem?_map, List.getElem?_range (Nat.mod_lt _ img.blockSize_pos),
      Option.map_some]
  have hbyte : (img.node data).blockIo.byteAt i =
      ((img.node data).readBlock (i / img.blockSize)).bind fun block =>
        block[i % img.blockSize]? := rfl
  rw [hbyte, Option.bind_eq_some_iff]
  constructor
  · rintro ⟨block,hr,hx⟩
    obtain ⟨hok,rfl⟩ := (readBlock_image hb).mp hr
    rw [hcell] at hx
    exact ⟨hok, (Option.some.inj hx).symm⟩
  · rintro ⟨hok,rfl⟩
    exact ⟨_, (readBlock_image hb).mpr ⟨hok, rfl⟩, hcell _⟩

theorem WellFormed.reached (hw : WellFormed img data) (hb : b < 12+img.blockSize / 4)
    (hp : img.pointer data b ≠ 0) : img.Reached data b ∧
      img.start data b = img.pointer data b*img.blockSize := by
  have hlt : img.disk.sizeInBytes < 2^32 := Nat.mod_lt _ (by decide)
  have hin : img.Inside (img.pointer data b) := (hw.blocks b hb).resolve_left hp
  have hpos := img.blockSize_pos
  rw [Image.Inside] at hin
  have hstart (href : img.reference data b = img.pointer data b) :
      img.start data b = img.pointer data b*img.blockSize := by
    rw [Image.start, href]
    exact Nat.mod_eq_of_lt (by omega)
  by_cases hdirect : b < 12
  · have href : img.reference data b = img.pointer data b := by
      rw [Image.reference, Image.pointer, if_pos hdirect, if_pos hdirect]
    rw [hstart href]
    exact ⟨⟨fun h12 => by omega, by rwa [hstart href]⟩, rfl⟩
  · have hind : data.indirect1.toNat ≠ 0 := by
      intro hz
      rw [Image.pointer, if_neg hdirect, if_pos hz] at hp
      exact hp rfl
    have hi : img.Inside data.indirect1.toNat := hw.indirect.resolve_left hind
    rw [Image.Inside] at hi
    have haddr : img.wordAddress data b = data.indirect1.toNat*img.blockSize+(b-12)*4 := by
      rw [Image.wordAddress]
      exact Nat.mod_eq_of_lt (by omega)
    have href : img.reference data b = img.pointer data b := by
      rw [Image.reference, Image.pointer, if_neg hdirect, if_neg hdirect, if_neg hind, haddr]
    rw [hstart href]
    exact ⟨⟨fun _ => by rw [haddr]; omega, by rwa [hstart href]⟩, rfl⟩

/-- Byte `i` is read as the file has it exactly when it is served. -/
theorem served_iff (hw : WellFormed img data) (hb : i / img.blockSize < 12+img.blockSize / 4) :
    (img.node data).blockIo.byteAt i = some (img.contents data i) ↔ img.Served data i := by
  rw [byteAt_image hb, Image.contents]
  by_cases hp : img.pointer data (i / img.blockSize) = 0
  · rw [if_pos hp]
    exact ⟨fun ⟨⟨hc,hd,hr⟩,hx⟩ => ⟨hd, hc, fun _ => ⟨hr, hx.symm⟩⟩,
      fun h => ⟨⟨h.counted, h.device, (h.hole hp).1⟩, (h.hole hp).2.symm⟩⟩
  · obtain ⟨hr,hs⟩ := hw.reached hb hp
    rw [if_neg hp, hs]
    exact ⟨fun ⟨⟨hc,hd,_⟩,_⟩ => ⟨hd, hc, fun hz => absurd hz hp⟩,
      fun h => ⟨⟨h.counted, h.device, hr⟩, rfl⟩⟩

/-- A read of a file returns its bytes, zeros for its holes, exactly when every byte it
covers is served. -/
theorem read_all_contents (img : Image) (data : NodeData) (offset n : Nat)
    (hw : WellFormed img data) (ho : offset ≤ data.sizeLow.toNat) :
    (img.node data).blockIo.readAll offset n =
        some (((min n (data.sizeLow.toNat-offset) : Nat) : Int),
          load (img.contents data) offset (min n (data.sizeLow.toNat-offset))) ↔
      ∀ i, offset ≤ i → i < offset+min n (data.sizeLow.toNat-offset) → img.Served data i := by
  have hread : (img.node data).blockIo.readAll offset n = _ := readAll_eq ho
  have hblock (i : Nat) (hi : i < min n (data.sizeLow.toNat-offset)) :
      (offset+i) / img.blockSize < 12+img.blockSize / 4 := by
    have hsize := hw.size
    exact Nat.div_lt_of_lt_mul (by rw [Nat.mul_comm]; omega)
  have hsize : (img.node data).blockIo.sizeInBytes = data.sizeLow.toNat := rfl
  rw [hread, hsize, Option.map_eq_some_iff]
  constructor
  · rintro ⟨xs,hf,hxs⟩ i hlo hhi
    obtain ⟨k,rfl⟩ := Nat.exists_eq_add_of_le hlo
    rw [(Prod.mk.inj hxs).2] at hf
    have hk : k < min n (data.sizeLow.toNat-offset) := by omega
    exact (served_iff hw (hblock k hk)).mp (fetch_eq_load.mp hf k hk)
  · intro hall
    refine ⟨_, fetch_eq_load.mpr fun i hi => ?_, rfl⟩
    exact (served_iff hw (hblock i hi)).mpr (hall _ (Nat.le_add_right _ _) (by omega))

/-- Eight blocks of 1024 bytes; block 3 begins with the letters `hi`. -/
def smallImage : Image where
  disk := ⟨8192, fun a => if a = 3072 then 104 else if a = 3073 then 105 else 0⟩
  logBlockSize := 0
  log_lt := by decide

/-- A file of `size` bytes whose block `b` is block 3 and whose other blocks are holes. -/
def oneBlock (size : UInt32) (b : Nat) : NodeData where
  sizeLow := size
  nSectors := 2
  direct k := if k = b then 3 else 0
  indirect1 := 0

theorem oneBlock_wellFormed {size : UInt32} {b : Nat} (hs : size.toNat ≤ 12*1024) :
    WellFormed smallImage (oneBlock size b) where
  size := Nat.le_trans hs (by decide)
  blocks k _ := by
    simp only [Image.pointer, oneBlock]
    split
    · split
      · exact Or.inr (by decide : 3*1024+1024 ≤ 8192 % 2^32)
      · exact Or.inl rfl
    · exact Or.inl rfl
  indirect := Or.inl rfl

theorem read_all_contents_two : (smallImage.node (oneBlock 2 0)).blockIo.readAll 0 5 =
    some (2, [104, 105]) := by
  have hserved (i : Nat) (_ : 0 ≤ i) (hi : i < 0+min 5 ((2 : UInt32).toNat-0)) :
      smallImage.Served (oneBlock 2 0) i := by
    have hi2 : i < 2 := hi
    have hblock : i / smallImage.blockSize = 0 := Nat.div_eq_of_lt (Nat.lt_trans hi2 (by decide))
    refine ⟨by decide, ?_, fun hz => ?_⟩
    · rw [hblock]
      decide
    · rw [hblock] at hz
      exact absurd hz (by decide)
  exact (read_all_contents smallImage (oneBlock 2 0) 0 5 (oneBlock_wellFormed (by decide))
    (by decide)).mpr hserved

/-- A file that begins with a hole: its second block lies beyond its sector count. -/
theorem sparse_file_asserts : ¬∀ (img : Image) (data : NodeData) (offset n : Nat),
    WellFormed img data → Accounted img data → offset ≤ data.sizeLow.toNat →
      (img.node data).blockIo.readAll offset n =
        some (((min n (data.sizeLow.toNat-offset) : Nat) : Int),
          load (img.contents data) offset (min n (data.sizeLow.toNat-offset))) := by
  intro hall
  have hread := hall smallImage (oneBlock 2048 1) 1024 1 (oneBlock_wellFormed (by decide))
    (by unfold Accounted; decide) (by decide)
  exact absurd hread (by decide)

end NetKernel.Ext2
