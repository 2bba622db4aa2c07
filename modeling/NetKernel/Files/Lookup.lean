import NetKernel.Files.Directory

/-! Lookup in a well-formed directory. Its records fill it one after the other, the unused
ones among them, and the walk keeps the last record that has the name. -/
namespace NetKernel.Lookups
open FlatMemory Blocks Loops Ext2 Directories

/-! Nodes by number. -/

/-- The members of class `Ext2`; 32-bit numbers. -/
structure FileSystem where
  device : BlockIo
  root : Inode
  logBlockSize : Nat
  log_lt : logBlockSize+10 < 32
  numberOfNodes : UInt32
  numberOfBlocks : UInt32
  iNodeSize : UInt32
  nGroups : UInt32
  iNodeTables : List UInt32
  iNodesPerGroup : UInt32

/-- `n` little-endian bytes of a record on the disk. -/
def field (bytes : List UInt8) (offset n : Nat) : Nat := littleEndian ((bytes.drop offset).take n)

/-- The 128 bytes of a `NodeData`, as far as reading a file looks at them. -/
def nodeData (bytes : List UInt8) : NodeData where
  sizeLow := UInt32.ofNat (field bytes 4 4)
  nSectors := UInt32.ofNat (field bytes 28 4)
  direct i := UInt32.ofNat (field bytes (40+4*i) 4)
  indirect1 := UInt32.ofNat (field bytes 88 4)

/-- `get_node`; `none` is a failed assertion or a division by zero. -/
def FileSystem.getNode (fs : FileSystem) (number : UInt32) : Option Inode := do
  guard (0 < number)
  guard (number ≤ fs.numberOfNodes)
  let index := number-1
  guard (fs.iNodesPerGroup ≠ 0)
  let groupIndex := index / fs.iNodesPerGroup
  guard (groupIndex < fs.nGroups)
  let indexInGroup := index % fs.iNodesPerGroup
  let iTableBase ← fs.iNodeTables[groupIndex.toNat]?
  guard (iTableBase ≤ fs.numberOfBlocks)
  let nodeOffset := (iTableBase.toNat*2^(fs.logBlockSize+10) +
    indexInGroup.toNat*fs.iNodeSize.toNat) % 2^32
  let bytes ← fs.device.readExact nodeOffset 128
  return ⟨number, UInt16.ofNat (field bytes 0 2),
    ⟨fs.logBlockSize, fs.log_lt, nodeData bytes, fs.device⟩⟩

/-- What `Ext2::find` makes of the number found: `some none` is the null reference. -/
def FileSystem.nodeOf (fs : FileSystem) (number : UInt32) : Option (Option Inode) :=
  if number = 0 then some none else (fs.getNode number).map some

def FileSystem.Find (fs : FileSystem) (dir : Inode) (name : List UInt8)
    (r : Option (Option Inode)) : Prop :=
  ∃ number, dir.Find name number ∧ r = number.bind fs.nodeOf

/-! The records of a directory. -/

def cString (xs : List UInt8) : List UInt8 := xs.takeWhile (· != 0)

structure Record where
  inode : UInt32
  totalSize : UInt16
  fileType : UInt8
  name : List UInt8
  name_lt : name.length < 256

/-- `k` little-endian bytes. -/
def littleBytes : Nat → Nat → List UInt8
  | 0, _ => []
  | k+1, n => UInt8.ofNat n :: littleBytes k (n / 256)

def Record.bytes (r : Record) : List UInt8 :=
  littleBytes 4 r.inode.toNat ++ (littleBytes 2 r.totalSize.toNat ++
    (UInt8.ofNat r.name.length :: r.fileType :: r.name))

/-- From `offset` on the directory is these records, each at least as long as its header
and name, up to its end. -/
def Tiles (io : BlockIo) : Nat → List Record → Prop
  | offset, [] => offset = io.sizeInBytes
  | offset, r :: rs => 8+r.name.length ≤ r.totalSize.toNat ∧
      fetch io.byteAt offset (8+r.name.length) = some r.bytes ∧
      Tiles io (offset+r.totalSize.toNat) rs

/-- A record is in use unless its inode number is 0. -/
def Record.Live (r : Record) : Prop := r.inode ≠ 0

def Record.Named (r : Record) (name : List UInt8) : Prop := cString r.name = cString name

instance (r : Record) : Decidable r.Live := inferInstanceAs (Decidable (_ ≠ _))

instance (r : Record) (name : List UInt8) : Decidable (r.Named name) :=
  inferInstanceAs (Decidable (_ = _))

structure WellFormed (dir : Inode) (rs : List Record) : Prop where
  isDir : dir.isDir = true
  tiles : Tiles dir.file.blockIo 0 rs
  distinct : rs.Pairwise fun r r' => r.Live → r'.Live → cString r.name ≠ cString r'.name

variable {io : BlockIo} {rs : List Record} {r : Record} {name : List UInt8} {offset : Nat}

theorem streq_iff {a b : List UInt8} : streq a b = true ↔ cString a = cString b := by
  induction a generalizing b with
  | nil =>
    cases b with
    | nil => simp [streq, cString]
    | cons y b => simp [streq, cString, List.takeWhile_cons]
  | cons x a ih =>
    rw [streq]
    cases b with
    | nil => by_cases hx : x = 0 <;> simp [hx, cString]
    | cons y b =>
      rw [List.headD_cons, List.tail_cons]
      by_cases hxy : x = y
      · subst hxy
        rw [if_neg (not_not.mpr rfl)]
        by_cases hx : x = 0
        · simp [hx, cString]
        · simpa [hx, cString, List.takeWhile_cons] using ih
      · rw [if_pos hxy]
        by_cases hx : x = 0
        · have hy : y ≠ 0 := fun hy => hxy (hx.trans hy.symm)
          simp [hx, hy, cString]
        · by_cases hy : y = 0
          · simp [hx, hy, cString]
          · simp [hx, hy, hxy, cString]

theorem littleEndian_littleBytes {k n : Nat} : littleEndian (littleBytes k n) = n % 256^k := by
  induction k generalizing n with
  | zero =>
    rw [Nat.pow_zero, Nat.mod_one]
    rfl
  | succ k ih =>
    have hstep : littleEndian (littleBytes (k+1) n) =
        (UInt8.ofNat n).toNat+256*littleEndian (littleBytes k (n / 256)) := rfl
    rw [hstep, ih, Nat.pow_succ', Nat.mod_mul, UInt8.toNat_ofNat']

theorem fetch_part {α : Type*} {f : Nat → Option α} {a n i k : Nat} {xs : List α}
    (h : fetch f a n = some xs) (hk : i+k ≤ n) : fetch f (a+i) k = some ((xs.drop i).take k) := by
  obtain ⟨hlen,hcell⟩ := fetch_eq_some.mp h
  refine fetch_eq_some.mpr ⟨?_, fun j hj => ?_⟩
  · rw [List.length_take, List.length_drop]
    omega
  · rw [Nat.add_assoc, hcell _ (by omega), List.getElem?_take_of_lt hj, List.getElem?_drop]

theorem Tiles.le (h : Tiles io offset rs) : offset ≤ io.sizeInBytes := by
  induction rs generalizing offset with
  | nil => exact Nat.le_of_eq h
  | cons r rs ih =>
    have := ih h.2.2
    omega

theorem readExact_part {a n i k : Nat} {xs : List UInt8} (h : fetch io.byteAt a n = some xs)
    (hend : a+n ≤ io.sizeInBytes) (hk : i+k ≤ n) :
    io.readExact ((a+i) % 2^32) k = some ((xs.drop i).take k) := by
  have hlt := io.size_lt
  cases k with
  | zero => rfl
  | succ k =>
    rw [Nat.mod_eq_of_lt (by omega), readExact_eq (Nat.succ_pos k), if_pos (by omega)]
    exact fetch_part h hk

@[simp] theorem length_littleBytes (k n : Nat) : (littleBytes k n).length = k := by
  induction k generalizing n with
  | zero => rfl
  | succ k ih => rw [littleBytes, List.length_cons, ih]

theorem readEntry_record (h : Tiles io offset (r :: rs)) :
    readEntry io offset = some ⟨r.inode, r.totalSize, r.name⟩ := by
  obtain ⟨hsize,hbytes,hrest⟩ := h
  have hend := hrest.le
  have hlt := io.size_lt
  have hname := r.name_lt
  have hread {i k : Nat} (hk : i+k ≤ 8+r.name.length) := readExact_part hbytes (by omega) hk
  have hdrop4 : r.bytes.drop 4 = littleBytes 2 r.totalSize.toNat ++
      (UInt8.ofNat r.name.length :: r.fileType :: r.name) := List.drop_left' (length_littleBytes 4 _)
  have hdrop6 : r.bytes.drop 6 = UInt8.ofNat r.name.length :: r.fileType :: r.name := by
    rw [show 6 = 4+2 from rfl, ← List.drop_drop, hdrop4, List.drop_left' (length_littleBytes 2 _)]
  have hdrop8 : r.bytes.drop 8 = r.name := by
    rw [show 8 = 6+2 from rfl, ← List.drop_drop, hdrop6]
    rfl
  have hinode : (r.bytes.drop 0).take 4 = littleBytes 4 r.inode.toNat :=
    List.take_left' (length_littleBytes 4 _)
  have h0 := hread (i := 0) (k := 4) (by omega)
  have h4 := hread (i := 4) (k := 2) (by omega)
  have h6 := hread (i := 6) (k := 1) (by omega)
  have h8 := hread (i := 8) (k := r.name.length) (by omega)
  rw [hinode, Nat.add_zero, Nat.mod_eq_of_lt (by omega)] at h0
  rw [hdrop4, List.take_left' (length_littleBytes 2 _)] at h4
  rw [hdrop6, List.take_succ_cons, List.take_zero] at h6
  rw [hdrop8, List.take_length] at h8
  have hlength : littleEndian [UInt8.ofNat r.name.length] = r.name.length := by
    change (UInt8.ofNat r.name.length).toNat+256*0 = _
    rw [UInt8.toNat_ofNat']
    omega
  have hi : UInt32.ofNat (littleEndian (littleBytes 4 r.inode.toNat)) = r.inode := by
    have hlt : r.inode.toNat < 256^4 := r.inode.toNat_lt
    rw [littleEndian_littleBytes, Nat.mod_eq_of_lt hlt, UInt32.ofNat_toNat]
  have ht : UInt16.ofNat (littleEndian (littleBytes 2 r.totalSize.toNat)) = r.totalSize := by
    have hlt : r.totalSize.toNat < 256^2 := r.totalSize.toNat_lt
    rw [littleEndian_littleBytes, Nat.mod_eq_of_lt hlt, UInt16.ofNat_toNat]
  simp only [readEntry, h0, h4, h6, hlength, h8, Option.bind_eq_bind, Option.bind_some, hi, ht]
  rfl

theorem returns_fold {γ : Type*} (work : γ → UInt32 → List UInt8 → γ) (acc : γ)
    (h : Tiles io offset rs) : Returns (entriesBody io work) ⟨offset, acc⟩
      (some (rs.foldl (fun acc r => work acc r.inode r.name) acc)) := by
  induction rs generalizing offset acc with
  | nil => exact returns_done (entriesBody_end (Nat.not_lt.mpr (Nat.le_of_eq h.symm)))
  | cons r rs ih =>
    have hend := h.2.2.le
    have hlt := io.size_lt
    have hsize := h.1
    have hbody : entriesBody io work ⟨offset, acc⟩ =
        .inl ⟨offset+r.totalSize.toNat, work acc r.inode r.name⟩ := by
      rw [entriesBody_inside (by omega), readEntry_record h]
      simp only [Nat.mod_eq_of_lt (show offset+r.totalSize.toNat < 2^32 by omega)]
    exact (returns_next hbody).mpr (ih _ h.2.2)

/-! The last record that has the name. -/

def lastNumber (name : List UInt8) (rs : List Record) : UInt32 :=
  rs.foldl (fun out r => if r.Named name then r.inode else out) 0

/-- No unused record has the name after a live one that has it. -/
def NoneStaleAfter (name : List UInt8) (rs : List Record) : Prop :=
  rs.Pairwise fun r r' => r.Live → r.Named name → r'.Named name → r'.Live

instance : Decidable (NoneStaleAfter name rs) := inferInstanceAs (Decidable (List.Pairwise _ _))

theorem findWork_eq (out number : UInt32) (r : Record) :
    findWork name out number r.name = if r.Named name then number else out := by
  rw [findWork]
  refine if_congr ?_ rfl rfl
  rw [streq_iff]
  exact eq_comm

theorem find_lastNumber {dir : Inode} (hw : WellFormed dir rs) :
    dir.Find name (some (lastNumber name rs)) := by
  have hret := returns_fold (findWork name) 0 hw.tiles
  simp only [findWork_eq] at hret
  rw [Inode.Find, Inode.Entries, if_pos hw.isDir]
  exact hret

theorem exists_last (h : ∃ r ∈ rs, r.Named name) : ∃ pre r post, rs = pre ++ r :: post ∧
    r.Named name ∧ ∀ r' ∈ post, ¬ r'.Named name := by
  induction rs with
  | nil => simp at h
  | cons r rs ih =>
    by_cases hrest : ∃ r' ∈ rs, r'.Named name
    · obtain ⟨pre,u,post,rfl,hu,hpost⟩ := ih hrest
      exact ⟨r :: pre, u, post, rfl, hu, hpost⟩
    · obtain ⟨u,hu,hn⟩ := h
      obtain rfl | hu := List.mem_cons.mp hu
      · exact ⟨[], u, rs, rfl, hn, fun r' hr' hn' => hrest ⟨r', hr', hn'⟩⟩
      · exact absurd ⟨u, hu, hn⟩ hrest

theorem foldl_named (h : ∀ r ∈ rs, ¬ r.Named name) (out : UInt32) :
    rs.foldl (fun out r => if r.Named name then r.inode else out) out = out := by
  induction rs generalizing out with
  | nil => rfl
  | cons r rs ih =>
    rw [List.foldl_cons, if_neg (h r List.mem_cons_self)]
    exact ih (fun r' hr' => h r' (List.mem_cons_of_mem _ hr')) out

theorem lastNumber_split {pre post : List Record} (hr : r.Named name)
    (hpost : ∀ r' ∈ post, ¬ r'.Named name) : lastNumber name (pre ++ r :: post) = r.inode := by
  rw [lastNumber, List.foldl_append, List.foldl_cons, if_pos hr, foldl_named hpost]

theorem lastNumber_none (h : ∀ r ∈ rs, ¬ r.Named name) : lastNumber name rs = 0 := foldl_named h 0

theorem noneStaleAfter_of_none (h : ∀ r ∈ rs, r.Live → ¬ r.Named name) : NoneStaleAfter name rs :=
  List.pairwise_of_forall_mem_list fun r hr _ _ hl hn => absurd hn (h r hr hl)

/-- The record that is left is the live one, or none, exactly without a stale record after it. -/
theorem lastNumber_iff
    (hd : rs.Pairwise fun r r' => r.Live → r'.Live → cString r.name ≠ cString r'.name) :
    ((∀ r ∈ rs, r.Live → r.Named name → lastNumber name rs = r.inode) ∧
      (lastNumber name rs = 0 ↔ ∀ r ∈ rs, r.Live → ¬ r.Named name)) ↔ NoneStaleAfter name rs := by
  by_cases hany : ∃ r ∈ rs, r.Named name
  · obtain ⟨pre,u,post,rfl,hu,hpost⟩ := exists_last hany
    rw [lastNumber_split hu hpost]
    obtain ⟨-,-,hcross⟩ := List.pairwise_append.mp hd
    by_cases hlive : u.Live
    · -- the last one is live: no other live record has the name
      have hpre (r : Record) (hr : r ∈ pre) (hl : r.Live) (hn : r.Named name) : False :=
        hcross r hr u List.mem_cons_self hl hlive (hn.trans hu.symm)
      refine iff_of_true ⟨fun r hr hl hn => ?_, iff_of_false hlive fun h => ?_⟩ ?_
      · obtain hr | hr := List.mem_append.mp hr
        · exact (hpre r hr hl hn).elim
        · obtain rfl | hr := List.mem_cons.mp hr
          · rfl
          · exact absurd hn (hpost r hr)
      · exact h u (List.mem_append_right _ List.mem_cons_self) hlive hu
      · refine List.pairwise_append.mpr ⟨noneStaleAfter_of_none hpre, ?_,
          fun r hr _ _ hl hn => (hpre r hr hl hn).elim⟩
        exact List.pairwise_cons.mpr ⟨fun r' hr' _ _ hn => absurd hn (hpost r' hr'),
          noneStaleAfter_of_none fun r hr _ => hpost r hr⟩
    · -- the last one is stale: the number left is 0
      have hzero : u.inode = 0 := not_not.mp hlive
      rw [hzero]
      constructor
      · rintro ⟨-,h⟩
        exact noneStaleAfter_of_none (h.mp rfl)
      · intro h
        have hnone (r : Record) (hr : r ∈ pre ++ u :: post) (hl : r.Live) : ¬ r.Named name := by
          intro hn
          obtain hr | hr := List.mem_append.mp hr
          · exact hlive ((List.pairwise_append.mp h).2.2 r hr u List.mem_cons_self hl hn hu)
          · obtain rfl | hr := List.mem_cons.mp hr
            · exact hlive hl
            · exact hpost r hr hn
        exact ⟨fun r hr hl hn => absurd hn (hnone r hr hl), iff_of_true rfl hnone⟩
  · have hnone (r : Record) (hr : r ∈ rs) : ¬ r.Named name := fun hn => hany ⟨r, hr, hn⟩
    refine iff_of_true ⟨fun r hr _ hn => absurd hn (hnone r hr), iff_of_true
      (lastNumber_none hnone) fun r hr _ => hnone r hr⟩
      (noneStaleAfter_of_none fun r hr _ => hnone r hr)

/-- What lookup is to do: the number of the live record with the name, 0 exactly when
there is none, and by it the node or a null reference. -/
def FindsLive (fs : FileSystem) (dir : Inode) (rs : List Record) (name : List UInt8) : Prop :=
  ∃ out, dir.Find name (some out) ∧
    (∀ r ∈ rs, r.Live → r.Named name → out = r.inode) ∧
    (out = 0 ↔ ∀ r ∈ rs, r.Live → ¬ r.Named name) ∧
    (∀ r ∈ rs, r.Live → r.Named name → fs.Find dir name ((fs.getNode r.inode).map some)) ∧
    ((∀ r ∈ rs, r.Live → ¬ r.Named name) → fs.Find dir name (some none))

theorem find_unique {dir : Inode} {a b : Option UInt32} (ha : dir.Find name a)
    (hb : dir.Find name b) : a = b := by
  rw [Inode.Find, Inode.Entries] at ha hb
  split at ha
  · rename_i hd
    rw [if_pos hd] at hb
    exact ha.unique hb
  · rename_i hd
    rw [if_neg hd] at hb
    exact ha.trans hb.symm

theorem FindsLive.noneStaleAfter {fs : FileSystem} {dir : Inode} (hw : WellFormed dir rs)
    (h : FindsLive fs dir rs name) : NoneStaleAfter name rs := by
  obtain ⟨out,hout,hlive,hzero,-⟩ := h
  obtain rfl := Option.some.inj (find_unique (find_lastNumber hw) hout)
  exact (lastNumber_iff hw.distinct).mp ⟨hlive, hzero⟩

/-- In a well-formed directory lookup finds the live record exactly when no unused record
that still has the name comes after it. -/
theorem findsLive_iff (fs : FileSystem) (dir : Inode) (rs : List Record) (name : List UInt8)
    (hw : WellFormed dir rs) : FindsLive fs dir rs name ↔ NoneStaleAfter name rs := by
  refine ⟨FindsLive.noneStaleAfter hw, fun h => ?_⟩
  have hfind : dir.Find name (some (lastNumber name rs)) := find_lastNumber hw
  obtain ⟨hlive,hzero⟩ := (lastNumber_iff hw.distinct).mpr h
  refine ⟨_, hfind, hlive, hzero, fun r hr hl hn => ⟨_, hfind, ?_⟩, fun hnone => ⟨_, hfind, ?_⟩⟩
  · rw [Option.bind_some, hlive r hr hl hn, FileSystem.nodeOf, if_neg hl]
  · rw [Option.bind_some, hzero.mpr hnone, FileSystem.nodeOf, if_pos rfl]

/-- The name `a`, in use and after its removal. -/
def liveRecord (totalSize : UInt16) : Record := ⟨12, totalSize, 1, [97], by decide⟩
def staleRecord (totalSize : UInt16) : Record := ⟨0, totalSize, 0, [97], by decide⟩

/-- A directory of one block with two records, the first of 12 bytes. -/
def twoRecords (r r' : Record) : Inode :=
  oneBlockDirectory (r.bytes ++ (List.replicate (12-(8+r.name.length)) 0 ++ r'.bytes))

def smallSystem : FileSystem where
  device := smallImage.disk.blockIo
  root := twoRecords (staleRecord 12) (liveRecord 1012)
  logBlockSize := 0
  log_lt := smallImage.log_lt
  numberOfNodes := 16
  numberOfBlocks := 8
  iNodeSize := 128
  nGroups := 1
  iNodeTables := [4]
  iNodesPerGroup := 16

theorem staleFirst_wellFormed : WellFormed (twoRecords (staleRecord 12) (liveRecord 1012))
    [staleRecord 12, liveRecord 1012] where
  isDir := by decide
  tiles := ⟨by decide, by decide +kernel, by decide, by decide +kernel, rfl⟩
  distinct := by decide

theorem liveFirst_wellFormed : WellFormed (twoRecords (liveRecord 12) (staleRecord 1012))
    [liveRecord 12, staleRecord 1012] where
  isDir := by decide
  tiles := ⟨by decide, by decide +kernel, by decide, by decide +kernel, rfl⟩
  distinct := by decide

theorem findsLive_iff_staleFirst :
    FindsLive smallSystem (twoRecords (staleRecord 12) (liveRecord 1012))
      [staleRecord 12, liveRecord 1012] [97] ↔
    NoneStaleAfter [97] [staleRecord 12, liveRecord 1012] :=
  findsLive_iff smallSystem _ _ [97] staleFirst_wellFormed

/-- The name is in use by node 12, and an unused record after it still has the name: lookup
says that there is none. -/
theorem stale_record_hides : WellFormed (twoRecords (liveRecord 12) (staleRecord 1012))
      [liveRecord 12, staleRecord 1012] ∧
    ¬ FindsLive smallSystem (twoRecords (liveRecord 12) (staleRecord 1012))
      [liveRecord 12, staleRecord 1012] [97] := by
  refine ⟨liveFirst_wellFormed, fun h => ?_⟩
  exact absurd (h.noneStaleAfter liveFirst_wellFormed) (by decide)

end NetKernel.Lookups
