import Mathlib.Algebra.Group.Nat.Defs
import NetKernel.Lib.FlatMemory

/-! Block devices and files: `read` and `read_all` over blocks of a fixed size. -/
namespace NetKernel.Blocks
open FlatMemory

/-- `read_block` fills a buffer with a whole block; `none` is a tripped assertion. -/
structure BlockIo where
  blockSize : Nat
  sizeInBytes : Nat
  readBlock : Nat → Option (List UInt8)
  blockSize_pos : 0 < blockSize
  size_lt : sizeInBytes < 2^32
  sized : ∀ b block, readBlock b = some block → block.length = blockSize

/-- `size_in_blocks`, in 32-bit arithmetic. -/
def BlockIo.sizeInBlocks (sizeInBytes blockSize : Nat) : Nat :=
  (sizeInBytes+blockSize-1) % 2^32 / blockSize

/-- The result and the bytes stored at the start of `buffer`. -/
def BlockIo.read (d : BlockIo) (offset desiredN : Nat) : Option (Int × List UInt8) :=
  let sz := d.sizeInBytes
  if sz < offset then some (-1, [])
  else if offset = sz then some (0, [])
  else do
    let n := min desiredN (sz-offset)
    let blockNumber := offset / d.blockSize
    let offsetInBlock := offset % d.blockSize
    let actualN := min (d.blockSize-offsetInBlock) n
    guard (actualN ≤ n)
    guard (offset+actualN ≤ sz)
    if actualN = d.blockSize then
      guard (offsetInBlock = 0)
      let buffer ← d.readBlock blockNumber
      return (actualN, buffer)
    else
      guard (offsetInBlock+actualN ≤ d.blockSize)
      let temp ← d.readBlock blockNumber
      return (actualN, (temp.drop offsetInBlock).take actualN)

/-- The loop of `read_all`, at most `fuel` rounds of it; `out` is what `buffer` holds. An
assertion leaves no result. -/
def BlockIo.fillLoop (d : BlockIo) : Nat → Nat → Nat → Int → List UInt8 →
    Option Int × List UInt8
  | 0, _, _, totalCount, out => (some totalCount, out)
  | fuel+1, offset, n, totalCount, out =>
    if n = 0 then (some totalCount, out)
    else match d.read offset n with
      | none => (none, out)
      | some (cnt, xs) =>
        if cnt < 0 then (some cnt, out)
        else if cnt = 0 then (some totalCount, out)
        else d.fillLoop fuel (offset+cnt.toNat) (n-cnt.toNat) (totalCount+cnt) (out ++ xs)

/-- `read_all`. Every round but the last reads something, so `n` rounds are enough. -/
def BlockIo.fill (d : BlockIo) (offset n : Nat) : Option Int × List UInt8 :=
  d.fillLoop n offset n 0 []

/-- The loop, where no assertion ends it. -/
def BlockIo.readLoop (d : BlockIo) (fuel offset n : Nat) (totalCount : Int) (out : List UInt8) :
    Option (Int × List UInt8) :=
  let r := d.fillLoop fuel offset n totalCount out
  r.1.map fun total => (total, r.2)

def BlockIo.readAll (d : BlockIo) (offset n : Nat) : Option (Int × List UInt8) :=
  d.readLoop n offset n 0 []

/-- `read_all` of `n` bytes and the assertion that it delivered them all. -/
def BlockIo.readExact (d : BlockIo) (offset n : Nat) : Option (List UInt8) :=
  (d.readAll offset n).bind fun (cnt, xs) => if cnt = n then some xs else none

def littleEndian (xs : List UInt8) : Nat := xs.foldr (fun x acc => x.toNat+256*acc) 0

/-- `read(offset, thing)` for a `uint32_t`. -/
def BlockIo.readUInt32 (d : BlockIo) (offset : Nat) : Option Nat :=
  (d.readExact offset 4).map littleEndian

/-! What is read, byte by byte. -/

/-- The byte `i`, as the block it lies in has it. -/
def BlockIo.byteAt (d : BlockIo) (i : Nat) : Option UInt8 :=
  (d.readBlock (i / d.blockSize)).bind fun block => block[i % d.blockSize]?

variable {d : BlockIo} {offset n k b : Nat} {block : List UInt8}

theorem byteAt_block {i : Nat} (hi : i < d.blockSize) :
    d.byteAt (b*d.blockSize+i) = (d.readBlock b).bind fun block => block[i]? := by
  rw [BlockIo.byteAt, Nat.mul_comm, Nat.mul_add_div d.blockSize_pos, Nat.div_eq_of_lt hi,
    Nat.add_zero, Nat.mul_add_mod, Nat.mod_eq_of_lt hi]

theorem fetch_block {i : Nat} (hk : 0 < k) (hi : i+k ≤ d.blockSize) :
    fetch d.byteAt (b*d.blockSize+i) k =
      (d.readBlock b).map fun block => (block.drop i).take k := by
  cases hb : d.readBlock b with
  | none =>
    refine fetch_eq_none.mpr ⟨0, hk, ?_⟩
    rw [Nat.add_zero, byteAt_block (by omega), hb, Option.bind_none]
  | some block =>
    have hlen := d.sized b block hb
    refine fetch_eq_some.mpr ⟨?_, fun j hj => ?_⟩
    · rw [List.length_take, List.length_drop]
      omega
    · rw [Nat.add_assoc, byteAt_block (by omega), hb, Option.bind_some,
        List.getElem?_take_of_lt hj, List.getElem?_drop]

/-- How many bytes one call of `read` delivers. -/
def BlockIo.chunk (d : BlockIo) (offset n : Nat) : Nat :=
  min (d.blockSize-offset % d.blockSize) (min n (d.sizeInBytes-offset))

theorem chunk_le_block : offset % d.blockSize+d.chunk offset n ≤ d.blockSize := by
  have hmod := Nat.mod_lt offset d.blockSize_pos
  have hle : d.chunk offset n ≤ d.blockSize-offset % d.blockSize := Nat.min_le_left _ _
  omega

theorem chunk_le : d.chunk offset n ≤ min n (d.sizeInBytes-offset) := Nat.min_le_right _ _

theorem chunk_pos (hn : 0 < n) (ho : offset < d.sizeInBytes) : 0 < d.chunk offset n := by
  have hmod := Nat.mod_lt offset d.blockSize_pos
  rw [BlockIo.chunk]
  omega

theorem fetch_chunk (hn : 0 < n) (ho : offset < d.sizeInBytes) :
    fetch d.byteAt offset (d.chunk offset n) = (d.readBlock (offset / d.blockSize)).map fun block =>
      (block.drop (offset % d.blockSize)).take (d.chunk offset n) := by
  have hfetch := fetch_block (b := offset / d.blockSize) (chunk_pos hn ho)
    (chunk_le_block (d := d) (n := n))
  rwa [Nat.div_add_mod'] at hfetch

theorem read_inside (hn : 0 < n) (ho : offset < d.sizeInBytes) : d.read offset n =
    (fetch d.byteAt offset (d.chunk offset n)).map fun xs => ((d.chunk offset n : Int), xs) := by
  have hblock : offset % d.blockSize+d.chunk offset n ≤ d.blockSize := chunk_le_block
  have hrest : d.chunk offset n ≤ min n (d.sizeInBytes-offset) := chunk_le
  have hend : offset+d.chunk offset n ≤ d.sizeInBytes := by omega
  have hfetch := fetch_chunk (d := d) hn ho
  have hchunk : min (d.blockSize-offset % d.blockSize) (min n (d.sizeInBytes-offset)) =
      d.chunk offset n := rfl
  rw [BlockIo.read, if_neg (by omega), if_neg (by omega), hfetch]
  simp only [hchunk, guard, if_pos hrest, if_pos hend, if_pos hblock, pure_bind]
  cases hb : d.readBlock (offset / d.blockSize) with
  | none => split <;> simp
  | some block =>
    by_cases hwhole : d.chunk offset n = d.blockSize
    · have hzero : offset % d.blockSize = 0 := by omega
      have hlen := d.sized _ block hb
      have htake : block.take d.blockSize = block := List.take_of_length_le (Nat.le_of_eq hlen)
      simp [hwhole, hzero, htake]
    · simp [hwhole]

theorem readLoop_step {fuel : Nat} {total : Int} {out : List UInt8} (hn : 0 < n)
    (ho : offset < d.sizeInBytes) : d.readLoop (fuel+1) offset n total out =
      (fetch d.byteAt offset (d.chunk offset n)).bind fun xs =>
        d.readLoop fuel (offset+d.chunk offset n) (n-d.chunk offset n)
          (total+d.chunk offset n) (out ++ xs) := by
  have hpos := chunk_pos hn ho
  rw [BlockIo.readLoop, BlockIo.fillLoop, if_neg (by omega), read_inside hn ho]
  cases fetch d.byteAt offset (d.chunk offset n) with
  | none => rfl
  | some xs =>
    simp only [Option.map_some, Int.toNat_natCast]
    rw [if_neg (by omega), if_neg (by omega), Option.bind_some, BlockIo.readLoop]

theorem readLoop_nothing {fuel : Nat} {total : Int} {out : List UInt8} :
    d.readLoop fuel offset 0 total out = some (total, out) := by
  cases fuel with
  | zero => rfl
  | succ fuel =>
    rw [BlockIo.readLoop, BlockIo.fillLoop, if_pos rfl]
    rfl

theorem readLoop_eq {fuel : Nat} {total : Int} {out : List UInt8} (hf : n ≤ fuel)
    (ho : offset ≤ d.sizeInBytes) : d.readLoop fuel offset n total out =
      (fetch d.byteAt offset (min n (d.sizeInBytes-offset))).map fun xs =>
        (total+(min n (d.sizeInBytes-offset) : Nat), out ++ xs) := by
  induction fuel generalizing offset n total out with
  | zero =>
    have hn : n = 0 := Nat.le_zero.mp hf
    subst hn
    simp [readLoop_nothing, fetch]
  | succ fuel ih =>
    by_cases hn : n = 0
    · subst hn
      simp [readLoop_nothing, fetch]
    by_cases hend : offset = d.sizeInBytes
    · subst hend
      simp [BlockIo.readLoop, BlockIo.fillLoop, hn, BlockIo.read, fetch]
    have hlt : offset < d.sizeInBytes := by omega
    have hpos := chunk_pos (d := d) (Nat.pos_of_ne_zero hn) hlt
    have hle : d.chunk offset n ≤ min n (d.sizeInBytes-offset) := chunk_le
    rw [readLoop_step (Nat.pos_of_ne_zero hn) hlt]
    generalize d.chunk offset n = k at hpos hle ⊢
    have hsplit : min n (d.sizeInBytes-offset) = k+min (n-k) (d.sizeInBytes-(offset+k)) := by omega
    rw [hsplit, fetch_add, Option.map_bind]
    refine Option.bind_congr fun xs _ => ?_
    rw [ih (by omega) (by omega), Function.comp_apply, Option.map_map]
    refine congrArg (fun g => Option.map g _) (funext fun ys => ?_)
    simp only [Function.comp_apply, List.append_assoc, Prod.mk.injEq, and_true]
    omega

/-- `read_all` from an offset not beyond the end: the bytes from there on, as many as are
asked for and there are, unless a block among them cannot be read. -/
theorem readAll_eq (ho : offset ≤ d.sizeInBytes) : d.readAll offset n =
    (fetch d.byteAt offset (min n (d.sizeInBytes-offset))).map fun xs =>
      (((min n (d.sizeInBytes-offset) : Nat) : Int), xs) := by
  rw [BlockIo.readAll, readLoop_eq (Nat.le_refl n) ho]
  simp only [Int.zero_add, List.nil_append]

theorem fill_beyond (ho : d.sizeInBytes < offset) (hn : 0 < n) :
    d.fill offset n = (some (-1), []) := by
  obtain ⟨n,rfl⟩ := Nat.exists_eq_succ_of_ne_zero (Nat.ne_of_gt hn)
  simp [BlockIo.fill, BlockIo.fillLoop, BlockIo.read, ho]

theorem readAll_fill :
    d.readAll offset n = (d.fill offset n).1.map fun total => (total, (d.fill offset n).2) := rfl

theorem readAll_beyond (ho : d.sizeInBytes < offset) (hn : 0 < n) :
    d.readAll offset n = some (-1, []) := by
  rw [readAll_fill, fill_beyond ho hn]
  rfl

/-! What is stored when an assertion ends the call. -/

theorem fillLoop_out (fuel offset n : Nat) (total : Int) (out : List UInt8) :
    ∃ xs, (d.fillLoop fuel offset n total out).2 = out ++ xs := by
  induction fuel generalizing offset n total out with
  | zero => exact ⟨[], (List.append_nil _).symm⟩
  | succ fuel ih =>
    rw [BlockIo.fillLoop]
    have hsame : ∃ xs, out = out ++ xs := ⟨[], (List.append_nil _).symm⟩
    split
    · exact hsame
    split
    · exact hsame
    rename_i cnt xs _
    split
    · exact hsame
    split
    · exact hsame
    · obtain ⟨ys,hys⟩ := ih (offset+cnt.toNat) (n-cnt.toNat) (total+cnt) (out ++ xs)
      exact ⟨xs ++ ys, hys.trans (List.append_assoc ..)⟩

theorem fill_none (hn : 0 < n) (ho : offset < d.sizeInBytes)
    (hb : d.readBlock (offset / d.blockSize) = none) : d.fill offset n = (none, []) := by
  obtain ⟨k,rfl⟩ := Nat.exists_eq_succ_of_ne_zero (Nat.ne_of_gt hn)
  rw [BlockIo.fill, BlockIo.fillLoop, if_neg (by omega), read_inside hn ho, fetch_chunk hn ho, hb]
  rfl

/-- Any other call below the end stores something, also when an assertion ends it later. -/
theorem fill_stores (hn : 0 < n) (ho : offset < d.sizeInBytes)
    (hb : d.readBlock (offset / d.blockSize) = some block) : (d.fill offset n).2 ≠ [] := by
  have hpos := chunk_pos hn ho
  obtain ⟨xs,hxs⟩ : ∃ xs, fetch d.byteAt offset (d.chunk offset n) = some xs := by
    rw [fetch_chunk hn ho, hb]
    exact ⟨_, rfl⟩
  have hlen := (fetch_eq_some.mp hxs).1
  obtain ⟨k,rfl⟩ := Nat.exists_eq_succ_of_ne_zero (Nat.ne_of_gt hn)
  rw [BlockIo.fill, BlockIo.fillLoop, if_neg (by omega), read_inside hn ho, hxs]
  simp only [Option.map_some, Int.toNat_natCast]
  rw [if_neg (by omega), if_neg (by omega)]
  obtain ⟨ys,hys⟩ := fillLoop_out (d := d) k (offset+d.chunk offset (k+1))
    (k+1-d.chunk offset (k+1)) (0+(d.chunk offset (k+1) : Nat)) ([] ++ xs)
  intro hnil
  rw [hys] at hnil
  have hzero := congrArg List.length hnil
  simp only [List.nil_append, List.length_append, List.length_nil] at hzero
  omega

theorem readExact_eq (hn : 0 < n) : d.readExact offset n =
    if offset+n ≤ d.sizeInBytes then fetch d.byteAt offset n else none := by
  by_cases ho : offset ≤ d.sizeInBytes
  · rw [BlockIo.readExact, readAll_eq ho, Option.bind_map]
    by_cases hend : offset+n ≤ d.sizeInBytes
    · rw [if_pos hend, Nat.min_eq_left (by omega)]
      refine (Option.bind_congr fun xs _ => ?_).trans (Option.bind_fun_some _)
      exact if_pos rfl
    · rw [if_neg hend, Nat.min_eq_right (by omega)]
      refine Option.bind_eq_none_iff.mpr fun xs _ => if_neg ?_
      omega
  · rw [BlockIo.readExact, readAll_beyond (Nat.lt_of_not_le ho) hn, if_neg (by omega),
      Option.bind_some]
    exact if_neg (by omega)

end NetKernel.Blocks
