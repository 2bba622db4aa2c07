import NetKernel.Files.BlockIo
import NetKernel.Lib.Loops

/-! `BlockIO::read` and `read_all` in the 32-bit arithmetic of the kernel, on a memory
with a buffer and with a record of the calls of `read_block`. -/
namespace NetKernel.BlockReads
open FlatMemory Loops Blocks

/-- `readBlock` is the virtual `read_block`; `none` is a tripped assertion in it. -/
structure BlockDevice where
  blockSize : UInt32
  sizeInBytes : UInt32
  readBlock : UInt32 → Option (List UInt8)
  blockSize_pos : 0 < blockSize.toNat
  sized : ∀ b block, readBlock b = some block → block.length = blockSize.toNat

/-- `calls` lists the block numbers that `read_block` was called for, in order. -/
structure ReadState where
  mem : Nat → UInt8
  calls : List UInt32

def min32 (a b : UInt32) : UInt32 := if a < b then a else b

def BlockDevice.callReadBlock (d : BlockDevice) (blockNumber : UInt32) (s : ReadState) :
    Option (List UInt8 × ReadState) :=
  (d.readBlock blockNumber).map fun block => (block, { s with calls := s.calls ++ [blockNumber] })

def BlockDevice.read (d : BlockDevice) (offset desiredN : UInt32) (buffer : Nat) (s : ReadState) :
    Option (Int × ReadState) :=
  let sz := d.sizeInBytes
  if sz < offset then some (-1, s)
  else if offset = sz then some (0, s)
  else do
    let n := min32 desiredN (sz-offset)
    let blockNumber := offset / d.blockSize
    let offsetInBlock := offset % d.blockSize
    let actualN := min32 (d.blockSize-offsetInBlock) n
    guard (actualN ≤ n)
    guard (offset+actualN ≤ sz)
    if actualN = d.blockSize then
      guard (offsetInBlock = 0)
      let (block, s) ← d.callReadBlock blockNumber s
      return (actualN.toNat, { s with mem := store s.mem buffer block })
    else
      guard (offsetInBlock+actualN ≤ d.blockSize)
      let (temp, s) ← d.callReadBlock blockNumber s
      let part := (temp.drop offsetInBlock.toNat).take actualN.toNat
      return (actualN.toNat, { s with mem := store s.mem buffer part })

/-- The variables of `read_all`. -/
structure ReadAllState extends ReadState where
  offset : UInt32
  n : UInt32
  buffer : Nat
  totalCount : Int

/-- One round of `read_all`; `cnt` is a 64-bit number, cut to 32 bits where it is added. -/
def BlockDevice.readAllBody (d : BlockDevice) (s : ReadAllState) :
    ReadAllState ⊕ Option (Int × ReadState) :=
  if s.n = 0 then .inr (some (s.totalCount, s.toReadState))
  else match d.read s.offset s.n s.buffer s.toReadState with
    | none => .inr none
    | some (cnt, t) =>
      if cnt < 0 then .inr (some (cnt, t))
      else if cnt = 0 then .inr (some (s.totalCount, t))
      else .inl ⟨t, UInt32.ofInt (s.offset.toNat+cnt), UInt32.ofInt (s.n.toNat-cnt),
        s.buffer+cnt.toNat, s.totalCount+cnt⟩

/-- A call of `read_all`. -/
def readAllStart (mem : Nat → UInt8) (offset n : UInt32) (buffer : Nat) : ReadAllState :=
  ⟨⟨mem, []⟩, offset, n, buffer, 0⟩

/-- The same device for the model of files, whose offsets are plain numbers. -/
def BlockDevice.blockIo (d : BlockDevice) : BlockIo where
  blockSize := d.blockSize.toNat
  sizeInBytes := d.sizeInBytes.toNat
  readBlock b := if b < 2^32 then d.readBlock (UInt32.ofNat b) else none
  blockSize_pos := d.blockSize_pos
  size_lt := d.sizeInBytes.toNat_lt
  sized b block hb := by
    split at hb
    · exact d.sized _ block hb
    · cases hb

variable {d : BlockDevice} {offset n : UInt32} {buffer : Nat} {s : ReadState}

theorem min32_toNat (a b : UInt32) : (min32 a b).toNat = min a.toNat b.toNat := by
  unfold min32
  split
  · rename_i h
    rw [UInt32.lt_iff_toNat_lt] at h
    omega
  · rename_i h
    rw [UInt32.lt_iff_toNat_lt] at h
    omega

theorem blockIo_readBlock (b : UInt32) : d.blockIo.readBlock b.toNat = d.readBlock b := by
  have hb := b.toNat_lt
  change (if b.toNat < 2^32 then d.readBlock (UInt32.ofNat b.toNat) else none) = _
  rw [if_pos hb, UInt32.ofNat_toNat]

/-- How many bytes one call of `read` delivers, in 32 bits. -/
def BlockDevice.chunk (d : BlockDevice) (offset n : UInt32) : UInt32 :=
  min32 (d.blockSize-offset % d.blockSize) (min32 n (d.sizeInBytes-offset))

theorem chunk_toNat (ho : offset < d.sizeInBytes) :
    (d.chunk offset n).toNat = d.blockIo.chunk offset.toNat n.toNat := by
  have hmod : offset % d.blockSize < d.blockSize := by
    rw [UInt32.lt_iff_toNat_lt, UInt32.toNat_mod]
    exact Nat.mod_lt _ d.blockSize_pos
  rw [BlockDevice.chunk, min32_toNat, min32_toNat, UInt32.toNat_sub_of_le _ _ (UInt32.le_of_lt hmod),
    UInt32.toNat_sub_of_le _ _ (UInt32.le_of_lt ho), UInt32.toNat_mod]
  rfl

/-- Below the end, `read` asks for one block, and no assertion of its own is tripped. -/
theorem read_below (hn : n ≠ 0) (ho : offset < d.sizeInBytes) : d.read offset n buffer s =
    (fetch d.blockIo.byteAt offset.toNat (d.blockIo.chunk offset.toNat n.toNat)).map fun xs =>
      ((d.blockIo.chunk offset.toNat n.toNat : Int),
        ⟨store s.mem buffer xs, s.calls ++ [offset / d.blockSize]⟩) := by
  have hn0 : 0 < n.toNat := Nat.pos_of_ne_zero fun h => hn (UInt32.toNat_inj.mp h)
  have ho' : offset.toNat < d.sizeInBytes.toNat := UInt32.lt_iff_toNat_lt.mp ho
  have hsize := d.sizeInBytes.toNat_lt
  have hbs := d.blockSize.toNat_lt
  have hk := chunk_toNat (n := n) ho
  have hpos : 0 < d.blockIo.chunk offset.toNat n.toNat := chunk_pos hn0 ho'
  have hblock : offset.toNat % d.blockSize.toNat+d.blockIo.chunk offset.toNat n.toNat ≤
      d.blockSize.toNat := chunk_le_block (d := d.blockIo)
  have hrest : d.blockIo.chunk offset.toNat n.toNat ≤
      min n.toNat (d.sizeInBytes.toNat-offset.toNat) := chunk_le
  have hfetch := fetch_block (d := d.blockIo) (b := (offset / d.blockSize).toNat) hpos hblock
  rw [blockIo_readBlock, UInt32.toNat_div] at hfetch
  change fetch _ (offset.toNat / d.blockSize.toNat*d.blockSize.toNat+_) _ = _ at hfetch
  rw [Nat.div_add_mod'] at hfetch
  have h1 : d.chunk offset n ≤ min32 n (d.sizeInBytes-offset) := by
    rw [UInt32.le_iff_toNat_le, min32_toNat, UInt32.toNat_sub_of_le _ _ (UInt32.le_of_lt ho), hk]
    exact hrest
  have h2 : offset+d.chunk offset n ≤ d.sizeInBytes := by
    rw [UInt32.le_iff_toNat_le, UInt32.toNat_add, hk]
    omega
  have h3 : offset % d.blockSize+d.chunk offset n ≤ d.blockSize := by
    rw [UInt32.le_iff_toNat_le, UInt32.toNat_add, hk, UInt32.toNat_mod]
    omega
  have hchunk : min32 (d.blockSize-offset % d.blockSize) (min32 n (d.sizeInBytes-offset)) =
      d.chunk offset n := rfl
  rw [BlockDevice.read, if_neg (UInt32.not_lt.mpr (UInt32.le_of_lt ho)), if_neg (UInt32.ne_of_lt ho),
    hfetch]
  simp only [hchunk, guard, if_pos h1, if_pos h2, if_pos h3, pure_bind, BlockDevice.callReadBlock]
  cases hb : d.readBlock (offset / d.blockSize) with
  | none => split <;> simp
  | some block =>
    by_cases hwhole : d.chunk offset n = d.blockSize
    · rw [hwhole] at hk
      have hzero : offset % d.blockSize = 0 := by
        rw [← UInt32.toNat_inj, UInt32.toNat_mod, UInt32.toNat_zero]
        omega
      have htake : block.take d.blockSize.toNat = block :=
        List.take_of_length_le (Nat.le_of_eq (d.sized _ block hb))
      have hzero' : offset.toNat % d.blockSize.toNat = 0 := by omega
      simp [hwhole, hzero, hzero', ← hk, htake]
    · simp [hwhole, ← hk]

/-! The loop of `read_all` does what it does over plain numbers. -/

theorem toNat_ofInt {x : Int} {k : Nat} (hx : x = k) (hk : k < 2^32) : (UInt32.ofInt x).toNat = k := by
  rw [hx, UInt32.ofInt, UInt32.toNat_ofNat']
  omega

theorem body_below {s : ReadAllState} (hn : s.n ≠ 0) (ho : s.offset < d.sizeInBytes) :
    d.readAllBody s =
      match fetch d.blockIo.byteAt s.offset.toNat (d.blockIo.chunk s.offset.toNat s.n.toNat) with
      | none => .inr none
      | some xs => .inl ⟨⟨store s.mem s.buffer xs, s.calls ++ [s.offset / d.blockSize]⟩,
          UInt32.ofInt (s.offset.toNat+d.blockIo.chunk s.offset.toNat s.n.toNat),
          UInt32.ofInt (s.n.toNat-d.blockIo.chunk s.offset.toNat s.n.toNat),
          s.buffer+d.blockIo.chunk s.offset.toNat s.n.toNat,
          s.totalCount+d.blockIo.chunk s.offset.toNat s.n.toNat⟩ := by
  have hn0 : 0 < s.n.toNat := Nat.pos_of_ne_zero fun h => hn (UInt32.toNat_inj.mp h)
  have hpos : 0 < d.blockIo.chunk s.offset.toNat s.n.toNat :=
    chunk_pos hn0 (UInt32.lt_iff_toNat_lt.mp ho)
  rw [BlockDevice.readAllBody, if_neg hn, read_below hn ho]
  cases fetch d.blockIo.byteAt s.offset.toNat (d.blockIo.chunk s.offset.toNat s.n.toNat) with
  | none => rfl
  | some xs =>
    dsimp only [Option.map_some]
    rw [if_neg (by omega), if_neg (by omega), Int.toNat_natCast]

theorem body_end {s : ReadAllState} (h : s.n = 0 ∨ s.offset = d.sizeInBytes) :
    d.readAllBody s = .inr (some (s.totalCount, s.toReadState)) := by
  rw [BlockDevice.readAllBody]
  by_cases hn : s.n = 0
  · rw [if_pos hn]
  · have ho := h.resolve_left hn
    rw [if_neg hn, BlockDevice.read, ho, if_neg (UInt32.lt_irrefl _), if_pos rfl]
    rfl

theorem store_append {m : Nat → UInt8} {a : Nat} {xs ys : List UInt8} :
    store (store m a xs) (a+xs.length) ys = store m a (xs ++ ys) := by
  funext x
  by_cases ha : a ≤ x
  · by_cases hx : a+xs.length ≤ x
    · rw [store, if_pos hx, store_of_ge hx, store, if_pos ha,
        List.getElem?_append_right (by omega), Nat.sub_add_eq]
    · rw [store_of_lt (by omega), store, if_pos ha, store, if_pos ha,
        List.getElem?_append_left (by omega)]
  · rw [store_of_lt (by omega), store_of_lt (by omega), store_of_lt (by omega)]

theorem readLoop_end {d : BlockIo} {fuel offset n : Nat} {total : Int} {out : List UInt8}
    (hf : n ≤ fuel) (ho : offset ≤ d.sizeInBytes) (h : n = 0 ∨ offset = d.sizeInBytes) :
    d.readLoop fuel offset n total out = some (total, out) := by
  have hrest : min n (d.sizeInBytes-offset) = 0 := by omega
  rw [readLoop_eq hf ho, hrest]
  simp [fetch]

/-- From an offset not beyond the end the loop returns, with the result and the bytes of
`readLoop`, after reading blocks of the device only. -/
theorem readAll_simulates {fuel : Nat} {s : ReadAllState} {mem : Nat → UInt8} {start : Nat}
    {out : List UInt8} {calls : List UInt32} (hf : s.n.toNat ≤ fuel) (ho : s.offset ≤ d.sizeInBytes)
    (hs : s.toReadState = ⟨store mem start out, calls⟩) (hbuf : s.buffer = start+out.length)
    (hcalls : ∀ b ∈ calls, b.toNat*d.blockSize.toNat < d.sizeInBytes.toNat) :
    ∃ calls', (∀ b ∈ calls', b.toNat*d.blockSize.toNat < d.sizeInBytes.toNat) ∧
      Returns d.readAllBody s
        ((d.blockIo.readLoop fuel s.offset.toNat s.n.toNat s.totalCount out).map fun r =>
          (r.1, ⟨store mem start r.2, calls'⟩)) := by
  induction fuel generalizing s out calls with
  | zero =>
    have hn : s.n = 0 := UInt32.toNat_inj.mp (Nat.le_zero.mp hf)
    refine ⟨calls, hcalls, returns_done ?_⟩
    rw [body_end (Or.inl hn), hs]
    rfl
  | succ fuel ih =>
    have hsize : s.offset.toNat ≤ d.sizeInBytes.toNat := UInt32.le_iff_toNat_le.mp ho
    by_cases hend : s.n = 0 ∨ s.offset = d.sizeInBytes
    · refine ⟨calls, hcalls, returns_done ?_⟩
      rw [body_end hend, hs, readLoop_end hf hsize
        (hend.imp (congrArg UInt32.toNat) (congrArg UInt32.toNat))]
      rfl
    obtain ⟨hn,hne⟩ := not_or.mp hend
    have hlt : s.offset < d.sizeInBytes := UInt32.lt_of_le_of_ne ho hne
    have hlt' : s.offset.toNat < d.sizeInBytes.toNat := UInt32.lt_iff_toNat_lt.mp hlt
    have hn0 : 0 < s.n.toNat := Nat.pos_of_ne_zero fun h => hn (UInt32.toNat_inj.mp h)
    have hpos : 0 < d.blockIo.chunk s.offset.toNat s.n.toNat := chunk_pos hn0 hlt'
    have hle : d.blockIo.chunk s.offset.toNat s.n.toNat ≤
        min s.n.toNat (d.sizeInBytes.toNat-s.offset.toNat) := chunk_le
    have hbody := body_below hn hlt
    rw [readLoop_step hn0 hlt']
    have hcall (b : UInt32) (hb : b ∈ calls ++ [s.offset / d.blockSize]) :
        b.toNat*d.blockSize.toNat < d.sizeInBytes.toNat := by
      obtain hb | hb := List.mem_append.mp hb
      · exact hcalls b hb
      · rw [List.mem_singleton.mp hb, UInt32.toNat_div]
        have := Nat.div_mul_le_self s.offset.toNat d.blockSize.toNat
        omega
    cases hx : fetch d.blockIo.byteAt s.offset.toNat (d.blockIo.chunk s.offset.toNat s.n.toNat) with
    | none =>
      rw [hx] at hbody
      exact ⟨calls, hcalls, returns_done hbody⟩
    | some xs =>
      rw [hx] at hbody
      have hlen := (fetch_eq_some.mp hx).1
      have hsz := d.sizeInBytes.toNat_lt
      have hnlt := s.n.toNat_lt
      generalize d.blockIo.chunk s.offset.toNat s.n.toNat = k at *
      have ho' : (UInt32.ofInt (s.offset.toNat+k)).toNat = s.offset.toNat+k :=
        toNat_ofInt (by omega) (by omega)
      have hn' : (UInt32.ofInt (s.n.toNat-k)).toNat = s.n.toNat-k :=
        toNat_ofInt (by omega) (by omega)
      have hs' : (⟨store s.mem s.buffer xs, s.calls ++ [s.offset / d.blockSize]⟩ : ReadState) =
          ⟨store mem start (out ++ xs), calls ++ [s.offset / d.blockSize]⟩ := by
        rw [hs, hbuf, store_append]
      obtain ⟨calls',hc,hret⟩ := ih
        (s := ⟨⟨store s.mem s.buffer xs, s.calls ++ [s.offset / d.blockSize]⟩,
          UInt32.ofInt (s.offset.toNat+k), UInt32.ofInt (s.n.toNat-k), s.buffer+k,
          s.totalCount+k⟩)
        (by rw [hn']; omega) (by rw [UInt32.le_iff_toNat_le, ho']; omega) hs'
        (by rw [hbuf, List.length_append, hlen, Nat.add_assoc]) hcall
      rw [ho', hn'] at hret
      exact ⟨calls', hc, (returns_next hbody).mpr hret⟩

theorem readAll_refused (mem : Nat → UInt8) (hn : n ≠ 0) (ho : d.sizeInBytes < offset) :
    Returns d.readAllBody (readAllStart mem offset n buffer) (some (-1, ⟨mem, []⟩)) := by
  refine returns_done ?_
  rw [BlockDevice.readAllBody, readAllStart, if_neg hn, BlockDevice.read, if_pos ho]
  rfl

theorem readAll_nothing (mem : Nat → UInt8) :
    Returns d.readAllBody (readAllStart mem offset 0 buffer) (some (0, ⟨mem, []⟩)) :=
  returns_done (body_end (Or.inl rfl))

/-- Where it returns, `read_all` returns the result and stores the bytes that the model of
files has for it. -/
theorem readAll_refines (offset n : UInt32) (buffer : Nat) (mem : Nat → UInt8) : ∃ calls,
    (∀ b ∈ calls, b.toNat*d.blockSize.toNat < d.sizeInBytes.toNat) ∧
    Returns d.readAllBody (readAllStart mem offset n buffer)
      ((d.blockIo.readAll offset.toNat n.toNat).map fun r =>
        (r.1, ⟨store mem buffer r.2, calls⟩)) := by
  have hnil : store mem buffer [] = mem := by
    funext x
    by_cases hx : buffer ≤ x
    · exact store_of_ge hx
    · exact store_of_lt (Nat.lt_of_not_le hx)
  by_cases ho : offset ≤ d.sizeInBytes
  · exact readAll_simulates (Nat.le_refl _) ho (by rw [readAllStart, hnil]) rfl (by simp)
  have ho' : d.sizeInBytes < offset := UInt32.not_le.mp ho
  refine ⟨[], by simp, ?_⟩
  by_cases hn : n = 0
  · subst hn
    have hret : d.blockIo.readAll offset.toNat (0 : UInt32).toNat = some (0, []) := rfl
    rw [hret, Option.map_some, hnil]
    exact readAll_nothing mem
  · rw [readAll_beyond (d := d.blockIo) (UInt32.lt_iff_toNat_lt.mp ho')
      (Nat.pos_of_ne_zero fun h => hn (UInt32.toNat_inj.mp h)), Option.map_some, hnil]
    exact readAll_refused mem hn ho'

/-! The reads of a device whose blocks are slices of some content. -/

/-- Inside the device, `read_block` delivers its slice of the content. -/
def Delivers (d : BlockDevice) (content : Nat → UInt8) : Prop :=
  ∀ b : UInt32, b.toNat*d.blockSize.toNat < d.sizeInBytes.toNat →
    d.readBlock b = some (load content (b.toNat*d.blockSize.toNat) d.blockSize.toNat)

theorem Delivers.byteAt {content : Nat → UInt8} (h : Delivers d content) {i : Nat}
    (hi : i < d.sizeInBytes.toNat) : d.blockIo.byteAt i = some (content i) := by
  have hmod := Nat.mod_lt i d.blockSize_pos
  have hsz := d.sizeInBytes.toNat_lt
  have hdiv : i / d.blockSize.toNat ≤ i := Nat.div_le_self _ _
  have hb : (UInt32.ofNat (i / d.blockSize.toNat)).toNat = i / d.blockSize.toNat := by
    rw [UInt32.toNat_ofNat']
    exact Nat.mod_eq_of_lt (by omega)
  have hle := Nat.div_mul_le_self i d.blockSize.toNat
  have hblock := h (UInt32.ofNat (i / d.blockSize.toNat)) (by rw [hb]; omega)
  rw [← blockIo_readBlock, hb] at hblock
  change (d.blockIo.readBlock (i / d.blockSize.toNat)).bind _ = _
  rw [hblock, Option.bind_some]
  change (load _ _ _)[i % d.blockSize.toNat]? = _
  rw [load, List.getElem?_map, List.getElem?_range hmod, Option.map_some, Nat.div_add_mod']

/-- What `read_all` is to do: -1 beyond the end, and otherwise the bytes from the offset
on into the buffer, as many as are asked for and there are; no other byte of the memory
changes, no block outside the device is asked for, and no assertion is tripped. -/
def ReadsSlice (d : BlockDevice) (content : Nat → UInt8) (offset n : UInt32) (buffer : Nat)
    (mem : Nat → UInt8) : Prop :=
  ∃ (result : Int) (t : ReadState),
    Returns d.readAllBody (readAllStart mem offset n buffer) (some (result, t)) ∧
    (result = -1 ↔ d.sizeInBytes < offset) ∧
    (offset ≤ d.sizeInBytes →
      result = (min n.toNat (d.sizeInBytes.toNat-offset.toNat) : Nat) ∧
      t.mem = store mem buffer
        (load content offset.toNat (min n.toNat (d.sizeInBytes.toNat-offset.toNat)))) ∧
    (d.sizeInBytes < offset → t.mem = mem) ∧
    ∀ b ∈ t.calls, b.toNat*d.blockSize.toNat < d.sizeInBytes.toNat

theorem not_readsSlice_nothing {content : Nat → UInt8} {mem : Nat → UInt8}
    (ho : d.sizeInBytes < offset) : ¬ ReadsSlice d content offset 0 buffer mem := by
  rintro ⟨result,t,hret,hneg,-⟩
  have hzero := hret.unique (readAll_nothing mem)
  have hresult := hneg.mpr ho
  rw [(Prod.mk.inj (Option.some.inj hzero)).1] at hresult
  cases hresult

/-- The read is a slice exactly when something is asked for or the offset lies in the file:
an empty read beyond the end is not refused. -/
theorem readsSlice_iff {content : Nat → UInt8} (hd : Delivers d content) (offset n : UInt32)
    (buffer : Nat) (mem : Nat → UInt8) :
    ReadsSlice d content offset n buffer mem ↔ n ≠ 0 ∨ offset ≤ d.sizeInBytes := by
  by_cases ho : offset ≤ d.sizeInBytes
  · refine iff_of_true ?_ (Or.inr ho)
    have ho' : offset.toNat ≤ d.blockIo.sizeInBytes := UInt32.le_iff_toNat_le.mp ho
    obtain ⟨calls,hcalls,hret⟩ := readAll_refines (d := d) offset n buffer mem
    have hfetch : fetch d.blockIo.byteAt offset.toNat
        (min n.toNat (d.blockIo.sizeInBytes-offset.toNat)) =
        some (load content offset.toNat (min n.toNat (d.blockIo.sizeInBytes-offset.toNat))) :=
      fetch_eq_load.mpr fun i hi => hd.byteAt (by
        change _ < d.blockIo.sizeInBytes
        omega)
    rw [readAll_eq ho', hfetch] at hret
    refine ⟨_, _, hret, ?_, fun _ => ⟨rfl, rfl⟩, fun h => absurd ho (UInt32.not_le.mpr h), hcalls⟩
    refine iff_of_false (fun h => ?_) (UInt32.not_lt.mpr ho)
    change ((min n.toNat (d.sizeInBytes.toNat-offset.toNat) : Nat) : Int) = -1 at h
    omega
  · have ho' : d.sizeInBytes < offset := UInt32.not_le.mp ho
    rw [or_iff_left ho]
    constructor
    · rintro h rfl
      exact not_readsSlice_nothing ho' h
    · intro hn
      exact ⟨-1, ⟨mem, []⟩, readAll_refused mem hn ho', iff_of_true rfl ho',
        fun h => absurd h ho, fun _ => rfl, by simp⟩

def sixBytes : BlockDevice where
  blockSize := 4
  sizeInBytes := 6
  readBlock b := some (load (fun i => UInt8.ofNat (i+1)) (b.toNat*4) 4)
  blockSize_pos := by decide
  sized b block hb := by
    obtain rfl := Option.some.inj hb
    rfl

theorem sixBytes_delivers : Delivers sixBytes fun i => UInt8.ofNat (i+1) := fun _ _ => rfl

theorem readsSlice_iff_sixBytes :
    ReadsSlice sixBytes (fun i => UInt8.ofNat (i+1)) 3 9 100 (fun _ => 0) ↔
      (9 : UInt32) ≠ 0 ∨ 3 ≤ sixBytes.sizeInBytes :=
  readsSlice_iff sixBytes_delivers 3 9 100 fun _ => 0

example : (loop sixBytes.readAllBody 9 (readAllStart (fun _ => 0) 3 9 100)).map
    (·.map fun r => (r.1, load r.2.mem 99 5, r.2.calls)) =
      some (some (3, [0, 4, 5, 6, 0], [0, 1])) := by decide

/-- Offset 7 of the six bytes, with nothing asked for: the result is 0, not -1. -/
theorem empty_read_not_refused : Delivers sixBytes (fun i => UInt8.ofNat (i+1)) ∧
    ¬ ReadsSlice sixBytes (fun i => UInt8.ofNat (i+1)) 7 0 100 (fun _ => 0) :=
  ⟨sixBytes_delivers, not_readsSlice_nothing (by decide)⟩

end NetKernel.BlockReads
