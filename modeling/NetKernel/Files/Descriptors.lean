import Mathlib.Algebra.Group.Int.Defs
import NetKernel.Files.BlockIo
import NetKernel.Lib.Runs

/-! Open files: `open`, `close`, `lseek` and `read` on the descriptor table of a process,
and what a read delivers at the descriptor's offset. -/
namespace NetKernel.Descriptors
open FlatMemory Blocks Runs

abbrev maxFds : Nat := 32

structure OpenFile where
  node : BlockIo
  offset : Nat

/-- `proc->fds`; a slot that is not `used` is `none`. -/
abbrev Fds := Nat → Option OpenFile

/-- `int(x)` for a register. -/
def toInt32 (x : UInt64) : Int :=
  let r : Nat := x.toNat % 2^32
  if r < 2^31 then r else r-2^32

/-- `int64_t(x)`. -/
def toInt64 (x : Int) : Int := if x % 2^64 < 2^63 then x % 2^64 else x % 2^64-2^64

/-- The slot of a descriptor that is in range and used. -/
def Fds.slot (fds : Fds) (fd : Int) : Option OpenFile :=
  if fd < 0 ∨ (maxFds : Int) ≤ fd then none else fds fd.toNat

def Fds.set (fds : Fds) (fd : Nat) (file : Option OpenFile) : Fds := Function.update fds fd file

/-- `alloc_fd`: the lowest free descriptor from 3 on. -/
def allocFd (fds : Fds) (node : BlockIo) : Int × Fds :=
  match (List.range' 3 (maxFds-3)).find? fun fd => (fds fd).isNone with
  | some fd => (fd, fds.set fd (some ⟨node, 0⟩))
  | none => (-1, fds)

/-- `open`, where `resolve_path` gives `node`. -/
def sysOpen (fds : Fds) (node : Option BlockIo) : Int × Fds :=
  match node with
  | none => (-1, fds)
  | some node => allocFd fds node

def sysClose (fds : Fds) (rdi : UInt64) : Int × Fds :=
  let fd := toInt32 rdi
  if 0 ≤ fd ∧ fd ≤ 2 then (0, fds)
  else if fd < 3 then (-1, fds)
  else match fds.slot fd with
    | none => (-1, fds)
    | some _ => (0, fds.set fd.toNat none)

/-- What an offset is counted from, by `whence`. -/
def lseekBase (file : OpenFile) (whence : Int) : Option Int :=
  if whence = 0 then some 0
  else if whence = 1 then some (toInt64 file.offset)
  else if whence = 2 then some file.node.sizeInBytes
  else none

/-- The new offset; the sum `base + off` is taken as the machine adds, modulo `2^64`. -/
def lseekNext (file : OpenFile) (off whence : Int) : Option Int :=
  (lseekBase file whence).bind fun base =>
    let next := toInt64 (base+off)
    if next < 0 then none else some next

def sysLseek (fds : Fds) (rdi rsi rdx : UInt64) : Int × Fds :=
  let fd := toInt32 rdi
  if fd < 3 then (-1, fds)
  else match fds.slot fd with
    | none => (-1, fds)
    | some file =>
      match lseekNext file (toInt64 rsi.toNat) (toInt32 rdx) with
      | none => (-1, fds)
      | some next => (next, fds.set fd.toNat (some { file with offset := next.toNat }))

/-- What a read leaves: its result, if no assertion in `read_all` has ended it, the bytes stored
at the user's buffer, the table. -/
structure ReadResult where
  result : Option Int
  stored : List UInt8
  fds : Fds

/-- `read`; `bufferOk` is what `user_buffer_ok` says of an address and a length. -/
def sysRead (fds : Fds) (bufferOk : UInt64 → UInt64 → Bool) (rdi rsi rdx : UInt64) :
    ReadResult :=
  let fd := toInt32 rdi
  let len := rdx
  if len.toNat = 0 then ⟨some 0, [], fds⟩
  else match fds.slot fd with
    | none => ⟨some (-1), [], fds⟩
    | some file =>
      if bufferOk rsi len = false ∨ 0xffffffff < len.toNat then ⟨some (-1), [], fds⟩
      else match file.node.fill (file.offset % 2^32) len.toNat with
        | (none, xs) => ⟨none, xs, fds⟩
        | (some cnt, xs) =>
          if cnt < 0 then ⟨some (-1), xs, fds⟩
          else
            let offset := (file.offset+cnt.toNat) % 2^64
            ⟨some cnt, xs, fds.set fd.toNat (some { file with offset := offset })⟩

/-! Runs. `position` is the offset a descriptor should have: the result of its last `lseek`
and the counts read since. -/

structure Table where
  fds : Fds
  position : Nat → Int

inductive Call where
  | openFile (node : Option BlockIo)
  | close (rdi : UInt64)
  | lseek (rdi rsi rdx : UInt64)
  | read (bufferOk : UInt64 → UInt64 → Bool) (rdi rsi rdx : UInt64)

def fdMachine : Machine Table Call where
  Init s := s.fds = fun _ => none
  step s
    | .openFile node =>
      let r := sysOpen s.fds node
      some ⟨r.2, if r.1 = -1 then s.position else Function.update s.position r.1.toNat 0⟩
    | .close rdi => some ⟨(sysClose s.fds rdi).2, s.position⟩
    | .lseek rdi rsi rdx =>
      let r := sysLseek s.fds rdi rsi rdx
      some ⟨r.2, if r.1 = -1 then s.position
        else Function.update s.position (toInt32 rdi).toNat r.1⟩
    | .read bufferOk rdi rsi rdx =>
      let r := sysRead s.fds bufferOk rdi rsi rdx
      let fd := (toInt32 rdi).toNat
      r.result.map fun cnt => ⟨r.fds, if 0 < cnt then Function.update s.position fd
        (s.position fd+cnt) else s.position⟩

/-- A read that returns a positive count has stored the file's bytes at the descriptor's
position and moves it past them; at or beyond the end nothing is stored, also when the call does
not return. -/
structure FollowsOffset (s : Table) (file : OpenFile) (fd : Nat) (r : ReadResult) : Prop where
  bytes : ∀ cnt, r.result = some cnt → 0 < cnt → ∃ o : Nat, s.position fd = o ∧
    o+cnt.toNat ≤ file.node.sizeInBytes ∧
    fetch file.node.byteAt o cnt.toNat = some r.stored ∧
    (r.fds fd).map OpenFile.offset = some (o+cnt.toNat)
  beyond : (file.node.sizeInBytes : Int) ≤ s.position fd →
    r.stored = [] ∧ ∀ cnt, r.result = some cnt → cnt ≤ 0

/-! The table keeps the positions. -/

/-- The offset of an open file is its descriptor's position, and not negative as `off_t`. -/
def Inv (s : Table) : Prop :=
  ∀ fd file, s.fds fd = some file → s.position fd = file.offset ∧ file.offset < 2^63

variable {s : Table} {file : OpenFile} {fd : Nat} {bufferOk : UInt64 → UInt64 → Bool}
  {rdi rsi rdx : UInt64}

theorem slot_some {f : Int} (h : s.fds.slot f = some file) : s.fds f.toNat = some file := by
  rw [Fds.slot] at h
  split at h
  · cases h
  · exact h

theorem Inv.update (h : Inv s) {o : Nat} (node : BlockIo) (ho : o < 2^63) (fd : Nat) :
    Inv ⟨s.fds.set fd (some ⟨node, o⟩), Function.update s.position fd o⟩ := by
  intro k f hk
  change Function.update s.fds fd (some ⟨node, o⟩) k = some f at hk
  change Function.update s.position fd (o : Int) k = f.offset ∧ _
  by_cases hkfd : k = fd
  · subst hkfd
    rw [Function.update_self] at hk ⊢
    cases hk
    exact ⟨rfl, ho⟩
  · rw [Function.update_of_ne hkfd] at hk ⊢
    exact h k f hk

theorem Inv.clear (h : Inv s) : Inv ⟨s.fds.set fd none, s.position⟩ := by
  intro k f hk
  change Function.update s.fds fd none k = some f at hk
  by_cases hkfd : k = fd
  · subst hkfd
    rw [Function.update_self] at hk
    cases hk
  · rw [Function.update_of_ne hkfd] at hk
    exact h k f hk

theorem Inv.close (h : Inv s) : Inv ⟨(sysClose s.fds rdi).2, s.position⟩ := by
  rw [sysClose]
  split
  · exact h
  split
  · exact h
  cases s.fds.slot (toInt32 rdi) with
  | none => exact h
  | some _ =>
    dsimp only
    exact h.clear

/-- `open` fails and changes nothing, or sets up a descriptor at the start of the file. -/
theorem open_cases (fds : Fds) (node : Option BlockIo) : sysOpen fds node = (-1, fds) ∨
    ∃ (file : BlockIo) (fd : Nat), sysOpen fds node = ((fd : Int), fds.set fd (some ⟨file, 0⟩)) := by
  cases node with
  | none => exact Or.inl rfl
  | some node =>
    rw [sysOpen, allocFd]
    cases (List.range' 3 (maxFds-3)).find? fun fd => (fds fd).isNone with
    | none => exact Or.inl rfl
    | some fd => exact Or.inr ⟨node, fd, rfl⟩

theorem Inv.openFile (h : Inv s) (node : Option BlockIo) :
    Inv ⟨(sysOpen s.fds node).2, if (sysOpen s.fds node).1 = -1 then s.position
      else Function.update s.position (sysOpen s.fds node).1.toNat 0⟩ := by
  cases open_cases s.fds node with
  | inl hfail =>
    rw [hfail]
    exact h
  | inr hopen =>
    obtain ⟨file,fd,heq⟩ := hopen
    have hne : ¬((fd : Int) = -1) := by omega
    rw [heq]
    dsimp only
    rw [if_neg hne]
    exact h.update file (Nat.two_pow_pos 63) fd

theorem toInt64_lt (x : Int) : toInt64 x < 2^63 := by
  rw [toInt64]
  split
  · assumption
  · omega

theorem lseekNext_bounds {off whence next : Int} (h : lseekNext file off whence = some next) :
    0 ≤ next ∧ next < 2^63 := by
  obtain ⟨base,-,h⟩ := Option.bind_eq_some_iff.mp h
  have hlt := toInt64_lt (base+off)
  dsimp only at h
  split at h
  · cases h
  · rw [← Option.some.inj h]
    omega

/-- `lseek` fails and changes nothing, or gives the descriptor the offset it returns. -/
theorem lseek_cases (fds : Fds) (rdi rsi rdx : UInt64) :
    sysLseek fds rdi rsi rdx = (-1, fds) ∨ ∃ (file : OpenFile) (o : Nat), o < 2^63 ∧
      sysLseek fds rdi rsi rdx =
        ((o : Int), fds.set (toInt32 rdi).toNat (some { file with offset := o })) := by
  rw [sysLseek]
  split
  · exact Or.inl rfl
  split
  · exact Or.inl rfl
  split
  · exact Or.inl rfl
  · rename_i file _ _ next hn
    obtain ⟨hlo,hhi⟩ := lseekNext_bounds hn
    refine Or.inr ⟨file, next.toNat, by omega, ?_⟩
    rw [Int.toNat_of_nonneg hlo]

theorem Inv.lseek (h : Inv s) (rsi rdx : UInt64) :
    Inv ⟨(sysLseek s.fds rdi rsi rdx).2, if (sysLseek s.fds rdi rsi rdx).1 = -1 then s.position
      else Function.update s.position (toInt32 rdi).toNat (sysLseek s.fds rdi rsi rdx).1⟩ := by
  cases lseek_cases s.fds rdi rsi rdx with
  | inl hfail =>
    rw [hfail]
    exact h
  | inr hmove =>
    obtain ⟨file,o,ho,heq⟩ := hmove
    rw [heq]
    have hne : ¬((o : Int) = -1) := by omega
    dsimp only
    rw [if_neg hne]
    exact h.update file.node ho _

/-! What a read does. -/

/-- The call gets past its checks. -/
def Accepted (bufferOk : UInt64 → UInt64 → Bool) (rsi rdx : UInt64) : Prop :=
  rdx.toNat ≠ 0 ∧ bufferOk rsi rdx = true ∧ rdx.toNat ≤ 0xffffffff

theorem sysRead_refused (h : ¬Accepted bufferOk rsi rdx ∨ s.fds.slot (toInt32 rdi) = none) :
    ∃ cnt : Int, cnt ≤ 0 ∧ sysRead s.fds bufferOk rdi rsi rdx = ⟨some cnt, [], s.fds⟩ := by
  have hfail : (-1 : Int) ≤ 0 := by decide
  rw [sysRead]
  split
  · exact ⟨0, Int.le_refl 0, rfl⟩
  rename_i hlen
  split
  · exact ⟨-1, hfail, rfl⟩
  rename_i file hslot
  split
  · exact ⟨-1, hfail, rfl⟩
  rename_i hok
  cases h with
  | inl hbad =>
    refine absurd ⟨hlen, ?_, by omega⟩ hbad
    rw [← Bool.not_eq_false]
    exact fun hb => hok (Or.inl hb)
  | inr hnone =>
    rw [hnone] at hslot
    cases hslot

/-- How many bytes a read of `len` delivers from a 32-bit offset. -/
def delivered (file : OpenFile) (len : Nat) : Nat :=
  min len (file.node.sizeInBytes-file.offset % 2^32)

/-- An accepted read delivers what lies at the low half of the offset, if all of it can be
read. -/
theorem sysRead_accepted (h : Accepted bufferOk rsi rdx)
    (hslot : s.fds.slot (toInt32 rdi) = some file) : sysRead s.fds bufferOk rdi rsi rdx =
      if file.node.sizeInBytes < file.offset % 2^32 then ⟨some (-1), [], s.fds⟩
      else match fetch file.node.byteAt (file.offset % 2^32) (delivered file rdx.toNat) with
        | none => ⟨none, (file.node.fill (file.offset % 2^32) rdx.toNat).2, s.fds⟩
        | some xs => ⟨some (delivered file rdx.toNat), xs, s.fds.set (toInt32 rdi).toNat
          (some ⟨file.node, (file.offset+delivered file rdx.toNat) % 2^64⟩)⟩ := by
  obtain ⟨hlen,hok,hmax⟩ := h
  have hchecks : ¬(bufferOk rsi rdx = false ∨ 0xffffffff < rdx.toNat) := by
    rw [hok, Bool.true_eq_false, false_or]
    exact Nat.not_lt.mpr hmax
  rw [sysRead, if_neg hlen, hslot]
  dsimp only
  rw [if_neg hchecks]
  by_cases hbeyond : file.node.sizeInBytes < file.offset % 2^32
  · rw [fill_beyond hbeyond (Nat.pos_of_ne_zero hlen), if_pos hbeyond]
    rfl
  · have hread := readAll_eq (d := file.node) (n := rdx.toNat) (Nat.le_of_not_lt hbeyond)
    rw [readAll_fill, ← delivered] at hread
    rw [if_neg hbeyond]
    generalize file.node.fill (file.offset % 2^32) rdx.toNat = r at hread ⊢
    obtain ⟨result,xs⟩ := r
    cases hf : fetch file.node.byteAt (file.offset % 2^32) (delivered file rdx.toNat) with
    | none =>
      rw [hf] at hread
      obtain rfl := Option.map_eq_none_iff.mp hread
      rfl
    | some ys =>
      rw [hf] at hread
      obtain ⟨cnt,rfl,heq⟩ := Option.map_eq_some_iff.mp hread
      obtain ⟨rfl,rfl⟩ := Prod.mk.inj heq
      have hnonneg : ¬((delivered file rdx.toNat : Nat) : Int) < 0 := by omega
      dsimp only
      rw [if_neg hnonneg, Int.toNat_natCast]

theorem Inv.read (h : Inv s) {cnt : Int}
    (hr : (sysRead s.fds bufferOk rdi rsi rdx).result = some cnt) :
    Inv ⟨(sysRead s.fds bufferOk rdi rsi rdx).fds,
      if 0 < cnt then Function.update s.position (toInt32 rdi).toNat
        (s.position (toInt32 rdi).toNat+cnt) else s.position⟩ := by
  by_cases hrefused : ¬Accepted bufferOk rsi rdx ∨ s.fds.slot (toInt32 rdi) = none
  · obtain ⟨cnt',hle,heq⟩ := sysRead_refused hrefused
    rw [heq] at hr ⊢
    cases hr
    rw [if_neg (by omega)]
    exact h
  obtain ⟨hacc,hopen⟩ := not_or.mp hrefused
  obtain ⟨file,hslot⟩ := Option.ne_none_iff_exists'.mp hopen
  obtain ⟨hpos,hlt⟩ := h _ _ (slot_some hslot)
  rw [sysRead_accepted (not_not.mp hacc) hslot] at hr ⊢
  split at hr
  · rename_i hbeyond
    rw [if_pos hbeyond]
    cases hr
    exact h
  · rename_i hbeyond
    rw [if_neg hbeyond]
    have hsize := file.node.size_lt
    have hcount : delivered file rdx.toNat ≤ file.node.sizeInBytes-file.offset % 2^32 :=
      Nat.min_le_right _ _
    cases hf : fetch file.node.byteAt (file.offset % 2^32) (delivered file rdx.toNat) with
    | none =>
      rw [hf] at hr
      cases hr
    | some xs =>
      rw [hf] at hr
      obtain rfl := (Option.some.inj hr).symm
      generalize delivered file rdx.toNat = cnt at hcount ⊢
      have hmod : (file.offset+cnt) % 2^64 = file.offset+cnt := Nat.mod_eq_of_lt (by omega)
      have hnew : file.offset+cnt < 2^63 := by omega
      have hup := h.update file.node hnew (toInt32 rdi).toNat
      dsimp only
      rw [hmod]
      split
      · rw [hpos]
        exact_mod_cast hup
      · rename_i hz
        have hzero : cnt = 0 := by omega
        subst hzero
        rw [Nat.add_zero, ← hpos, Function.update_eq_self] at hup
        exact hup

theorem inv_invariant : fdMachine.system.Invariant Inv where
  init s hinit fd file hf := by
    rw [show s.fds = _ from hinit] at hf
    cases hf
  step := by
    rintro s t h ⟨a,-,hs⟩
    cases a with
    | openFile node =>
      cases hs
      exact h.openFile node
    | close rdi =>
      cases hs
      exact h.close
    | lseek rdi rsi rdx =>
      cases hs
      exact h.lseek rsi rdx
    | read bufferOk rdi rsi rdx =>
      obtain ⟨cnt,hr,rfl⟩ := Option.map_eq_some_iff.mp hs
      exact h.read hr

/-- The call is refused, the offset fits the 32 bits `read_all` takes, what is left of it
lies at or beyond the end, or the block that it lies in cannot be read. -/
def ReadCondition (file : OpenFile) (bufferOk : UInt64 → UInt64 → Bool) (rsi rdx : UInt64) :
    Prop :=
  ¬Accepted bufferOk rsi rdx ∨ file.offset < 2^32 ∨
    file.node.sizeInBytes ≤ file.offset % 2^32 ∨
    file.node.readBlock (file.offset % 2^32 / file.node.blockSize) = none

theorem followsOffset_of_empty {r : ReadResult} (hres : ∀ cnt, r.result = some cnt → cnt ≤ 0)
    (hst : r.stored = []) : FollowsOffset s file fd r :=
  ⟨fun cnt hr h => absurd h (Int.not_lt.mpr (hres cnt hr)), fun _ => ⟨hst, hres⟩⟩

theorem followsOffset_of_lt (hpos : s.position fd = file.offset)
    (hle : file.offset ≤ file.node.sizeInBytes) {n : Nat} {xs : List UInt8}
    (hn : n ≤ file.node.sizeInBytes-file.offset)
    (hxs : fetch file.node.byteAt file.offset n = some xs) :
    FollowsOffset s file fd
      ⟨some n, xs, s.fds.set fd (some ⟨file.node, (file.offset+n) % 2^64⟩)⟩ where
  bytes cnt hcnt _ := by
    cases hcnt
    have hsize := file.node.size_lt
    have hmod : (file.offset+n) % 2^64 = file.offset+n := Nat.mod_eq_of_lt (by omega)
    refine ⟨file.offset, hpos, ?_, hxs, ?_⟩
    · change file.offset+n ≤ _
      omega
    · change (Function.update s.fds fd _ fd).map OpenFile.offset = _
      rw [Function.update_self, Option.map_some, hmod]
      rfl
  beyond hb := by
    rw [hpos] at hb
    have hzero : n = 0 := by omega
    subst hzero
    rw [fetch] at hxs
    refine ⟨(Option.some.inj hxs).symm, fun cnt hcnt => ?_⟩
    cases hcnt
    exact Int.le_refl 0

/-- Beyond 32 bits a read that has a block to read from stores bytes of the file there. -/
theorem read_stores (hacc : Accepted bufferOk rsi rdx)
    (hslot : s.fds.slot (toInt32 rdi) = some file)
    (hin : file.offset % 2^32 < file.node.sizeInBytes) {block : List UInt8}
    (hb : file.node.readBlock (file.offset % 2^32 / file.node.blockSize) = some block) :
    (sysRead s.fds bufferOk rdi rsi rdx).stored ≠ [] := by
  have hlen := Nat.pos_of_ne_zero hacc.1
  have hpositive : 0 < delivered file rdx.toNat := by
    rw [delivered]
    omega
  rw [sysRead_accepted hacc hslot, if_neg (by omega)]
  cases hf : fetch file.node.byteAt (file.offset % 2^32) (delivered file rdx.toNat) with
  | none => exact fill_stores hlen hin hb
  | some xs =>
    rintro rfl
    rw [← (fetch_eq_some.mp hf).1] at hpositive
    exact absurd hpositive (Nat.lt_irrefl 0)

def countingFile : BlockIo where
  blockSize := 16
  sizeInBytes := 10
  readBlock b := if b = 0 then some ((List.range 16).map UInt8.ofNat) else none
  blockSize_pos := by decide
  size_lt := by decide
  sized b block h := by
    split at h
    · rw [← Option.some.inj h, List.length_map, List.length_range]
    · cases h

def seekTable (o : Nat) : Table :=
  ⟨Fds.set (fun _ => none) 3 (some ⟨countingFile, o⟩), Function.update (fun _ => 0) 3 o⟩

theorem toInt32_three : toInt32 3 = 3 := by decide +kernel

theorem seekTable_slot (o : Nat) :
    (seekTable o).fds.slot (toInt32 3) = some ⟨countingFile, o⟩ := by
  rw [toInt32_three]
  rfl

theorem lseekNext_set {o : UInt64} (ho : o.toNat < 2^63) :
    lseekNext ⟨countingFile, 0⟩ (toInt64 o.toNat) (toInt32 0) = some (o.toNat : Int) := by
  have hoff : toInt64 o.toNat = o.toNat := by
    rw [toInt64]
    omega
  have hwhence : toInt32 0 = 0 := by decide +kernel
  rw [lseekNext, lseekBase, if_pos hwhence, Option.bind_some, hoff, Int.zero_add, hoff]
  exact if_neg (by omega)

theorem sysLseek_some {next : Int} (hfd : ¬toInt32 rdi < 3)
    (hslot : s.fds.slot (toInt32 rdi) = some file)
    (hnext : lseekNext file (toInt64 rsi.toNat) (toInt32 rdx) = some next) :
    sysLseek s.fds rdi rsi rdx =
      (next, s.fds.set (toInt32 rdi).toNat (some { file with offset := next.toNat })) := by
  rw [sysLseek, if_neg hfd]
  split
  · rename_i hnone
    rw [hslot] at hnone
    cases hnone
  rename_i f hf
  cases hslot.symm.trans hf
  split
  · rename_i hnone
    rw [hnext] at hnone
    cases hnone
  rename_i k hk
  cases hnext.symm.trans hk
  rfl

theorem sysLseek_set {o : UInt64} (ho : o.toNat < 2^63) :
    sysLseek (seekTable 0).fds 3 o 0 = ((o.toNat : Int), (seekTable o.toNat).fds) := by
  have hfd : ¬toInt32 3 < 3 := by rw [toInt32_three]; decide
  rw [sysLseek_some hfd (seekTable_slot 0) (lseekNext_set ho), toInt32_three]
  exact congrArg (Prod.mk _) (Function.update_idem ..)

theorem seekTable_reachable (o : UInt64) (ho : o.toNat < 2^63) :
    fdMachine.system.Reachable (seekTable o.toNat) := by
  have hinit : fdMachine.system.Reachable ⟨fun _ => none, fun _ => 0⟩ :=
    .init (rfl : (fun _ => none) = (fun _ => none : Fds))
  have hopen : fdMachine.system.Reachable (seekTable 0) :=
    hinit.step ⟨.openFile (some countingFile), trivial, rfl⟩
  refine hopen.step ⟨.lseek 3 o 0, trivial, ?_⟩
  have hne : ¬((o.toNat : Int) = -1) := by omega
  simp only [fdMachine, sysLseek_set ho, if_neg hne, toInt32_three]
  exact congrArg (fun p => some (Table.mk _ p)) (Function.update_idem ..)

end NetKernel.Descriptors
