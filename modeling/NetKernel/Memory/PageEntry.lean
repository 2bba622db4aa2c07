import Mathlib.Data.Nat.Bitwise

/-! Page table entries: flags, the frame and the address in them, and the entries the
kernel makes, as the bit operations and as arithmetic. -/
namespace NetKernel.PageTables

abbrev pageSize : Nat := 4096
abbrev huge2M : Nat := 0x200000
abbrev pteAddrMask : Nat := 0x000FFFFFFFFFF000

/-- `entry & PTE_PRESENT`, `PTE_WRITE`, `PTE_USER` and `PTE_HUGE`. -/
def present (entry : Nat) : Bool := entry.testBit 0
def write (entry : Nat) : Bool := entry.testBit 1
def user (entry : Nat) : Bool := entry.testBit 2
def huge (entry : Nat) : Bool := entry.testBit 7

/-- `(entry >> 12) & 0xFFFFFFFFF`. -/
def entryPpn (entry : Nat) : Nat := (entry >>> 12) &&& 0xFFFFFFFFF

/-- `entry & PTE_ADDR_MASK`. -/
def entryAddr (entry : Nat) : Nat := entry &&& pteAddrMask

def makeEntry (ppn : Nat) (user write : Bool) : Nat :=
  (ppn <<< 12) % 2^64 ||| 1 ||| (if write then 2 else 0) ||| (if user then 4 else 0)

def tableIndex (vpn level : Nat) : Nat := (vpn >>> (level*9)) &&& 0x1FF

/-- An entry of the child table that `split_large_entry` fills. -/
def splitEntry (entry level i : Nat) : Nat :=
  let base := entryAddr entry
  let leafFlags := entry &&& 7
  if level = 2 then (base+i*huge2M) ||| leafFlags ||| 0x80 else (base+i*pageSize) ||| leafFlags

variable {entry ppn vpn level i : Nat} {u w : Bool}

theorem tableIndex_eq : tableIndex vpn level = vpn / 512^level % 512 := by
  rw [tableIndex, Nat.shiftRight_eq_div_pow, Nat.mul_comm, Nat.pow_mul]
  exact Nat.and_two_pow_sub_one_eq_mod _ 9

theorem tableIndex_lt : tableIndex vpn level < 512 := by
  rw [tableIndex_eq]
  exact Nat.mod_lt _ (by decide)

theorem index_low (h : vpn < 2^35) : tableIndex vpn 3 < 256 := by
  rw [tableIndex_eq]
  omega

theorem entryPpn_eq : entryPpn entry = entry / 4096 % 2^36 := by
  rw [entryPpn, Nat.shiftRight_eq_div_pow]
  exact Nat.and_two_pow_sub_one_eq_mod _ 36

theorem entryAddr_eq : entryAddr entry = entry / 4096 % 2^40 * 4096 := by
  refine Nat.eq_of_testBit_eq fun i => ?_
  have hmask : pteAddrMask = (2^40-1) * 2^12 := rfl
  rw [entryAddr, hmask, Nat.testBit_and, Nat.testBit_mul_two_pow, Nat.testBit_two_pow_sub_one,
    show 4096 = 2^12 from rfl, Nat.testBit_mul_two_pow, Nat.testBit_mod_two_pow,
    Nat.testBit_div_two_pow]
  by_cases hi : 12 ≤ i
  · simp [hi, Bool.and_comm]
  · simp [hi]

theorem or_flags {flags : Nat} (k : Nat) (hf : flags < 4096) :
    4096*k ||| flags = 4096*k+flags :=
  (Nat.two_pow_add_eq_or_of_lt (i := 12) hf k).symm

theorem makeEntry_eq : makeEntry ppn u w =
    4096*(ppn % 2^52)+(1+(if w then 2 else 0)+(if u then 4 else 0)) := by
  have hshift : (ppn <<< 12) % 2^64 = 4096*(ppn % 2^52) := by
    rw [Nat.shiftLeft_eq]
    omega
  rw [makeEntry, hshift, Nat.or_assoc, Nat.or_assoc]
  cases u <;> cases w <;> exact or_flags _ (by decide)

theorem present_eq : present entry = decide (entry % 2 = 1) := by
  rw [present, Nat.testBit_eq_decide_div_mod_eq, Nat.pow_zero, Nat.div_one]

theorem write_eq : write entry = decide (entry / 2 % 2 = 1) := Nat.testBit_eq_decide_div_mod_eq

theorem user_eq : user entry = decide (entry / 4 % 2 = 1) := Nat.testBit_eq_decide_div_mod_eq

theorem huge_eq : huge entry = decide (entry / 128 % 2 = 1) := Nat.testBit_eq_decide_div_mod_eq

@[simp] theorem present_zero : present 0 = false := by
  rw [present, Nat.zero_testBit]

/-! An entry of the kernel's making. -/

@[simp] theorem present_makeEntry : present (makeEntry ppn u w) = true := by
  rw [present_eq, makeEntry_eq, decide_eq_true_eq]
  cases u <;> cases w <;> simp only [if_true, Bool.false_eq_true, if_false] <;> omega

@[simp] theorem write_makeEntry : write (makeEntry ppn u w) = w := by
  rw [write_eq, makeEntry_eq]
  cases w
  · rw [decide_eq_false_iff_not]
    cases u <;> simp only [if_true, Bool.false_eq_true, if_false] <;> omega
  · rw [decide_eq_true_eq]
    cases u <;> simp only [if_true, Bool.false_eq_true, if_false] <;> omega

@[simp] theorem user_makeEntry : user (makeEntry ppn u w) = u := by
  rw [user_eq, makeEntry_eq]
  cases u
  · rw [decide_eq_false_iff_not]
    cases w <;> simp only [if_true, Bool.false_eq_true, if_false] <;> omega
  · rw [decide_eq_true_eq]
    cases w <;> simp only [if_true, Bool.false_eq_true, if_false] <;> omega

@[simp] theorem huge_makeEntry : huge (makeEntry ppn u w) = false := by
  rw [huge_eq, makeEntry_eq, decide_eq_false_iff_not]
  cases u <;> cases w <;> simp only [if_true, Bool.false_eq_true, if_false] <;> omega

theorem makeEntry_div : makeEntry ppn u w / 4096 = ppn % 2^52 := by
  rw [makeEntry_eq]
  cases u <;> cases w <;> simp only [if_true, Bool.false_eq_true, if_false] <;> omega

theorem entryPpn_makeEntry (h : ppn < 2^36) : entryPpn (makeEntry ppn u w) = ppn := by
  rw [entryPpn_eq, makeEntry_div]
  omega

theorem entryAddr_makeEntry : entryAddr (makeEntry ppn u w) = ppn % 2^40 * 4096 := by
  rw [entryAddr_eq, makeEntry_div]
  omega

/-! An entry split off a large one. -/

theorem splitEntry_two : splitEntry entry 2 i =
    4096*(entry / 4096 % 2^40+i*512)+(entry % 8+128) := by
  have hflags : entry &&& 7 = entry % 8 := Nat.and_two_pow_sub_one_eq_mod _ 3
  have hor : entry % 8 ||| 0x80 = 128*1+entry % 8 := by
    rw [Nat.or_comm]
    exact (Nat.two_pow_add_eq_or_of_lt (i := 7) (by omega) 1).symm
  have hbase : entryAddr entry+i*huge2M = 4096*(entry / 4096 % 2^40+i*512) := by
    rw [entryAddr_eq]
    simp only [huge2M]
    omega
  rw [splitEntry, if_pos rfl, hflags, hbase, Nat.or_assoc, hor, or_flags _ (by omega)]
  omega

theorem splitEntry_one : splitEntry entry 1 i =
    4096*(entry / 4096 % 2^40+i)+entry % 8 := by
  have hflags : entry &&& 7 = entry % 8 := Nat.and_two_pow_sub_one_eq_mod _ 3
  have hbase : entryAddr entry+i*pageSize = 4096*(entry / 4096 % 2^40+i) := by
    rw [entryAddr_eq]
    simp only [pageSize]
    omega
  rw [splitEntry, if_neg (by decide), hflags, hbase, or_flags _ (by omega)]

/-- The base of a large entry is a multiple of its size. -/
def Aligned (level entry : Nat) : Prop := entryAddr entry % (pageSize*512^level) = 0

section Split
variable (hl : level = 1 ∨ level = 2)
include hl

theorem present_splitEntry : present (splitEntry entry level i) = present entry := by
  simp only [present_eq]
  obtain rfl | rfl := hl
  · rw [splitEntry_one]
    congr 2
    omega
  · rw [splitEntry_two]
    congr 2
    omega

theorem write_splitEntry : write (splitEntry entry level i) = write entry := by
  simp only [write_eq]
  obtain rfl | rfl := hl
  · rw [splitEntry_one]
    congr 2
    omega
  · rw [splitEntry_two]
    congr 2
    omega

theorem user_splitEntry : user (splitEntry entry level i) = user entry := by
  simp only [user_eq]
  obtain rfl | rfl := hl
  · rw [splitEntry_one]
    congr 2
    omega
  · rw [splitEntry_two]
    congr 2
    omega

theorem entryAddr_splitEntry (ha : Aligned level entry) (hi : i < 512) :
    entryAddr (splitEntry entry level i) = entryAddr entry+i*(pageSize*512^(level-1)) := by
  rw [Aligned, entryAddr_eq] at ha
  rw [entryAddr_eq, entryAddr_eq]
  obtain rfl | rfl := hl
  · rw [splitEntry_one]
    simp only [pageSize] at *
    omega
  · rw [splitEntry_two]
    simp only [pageSize] at *
    omega

end Split

theorem aligned_splitEntry (ha : Aligned 2 entry) (hi : i < 512) :
    Aligned 1 (splitEntry entry 2 i) := by
  have hsum := entryAddr_splitEntry (Or.inr rfl) ha hi
  simp only [Aligned, hsum, pageSize] at *
  omega

theorem huge_splitEntry : huge (splitEntry entry 2 i) = true := by
  rw [huge_eq, splitEntry_two, decide_eq_true_eq]
  omega

end NetKernel.PageTables
