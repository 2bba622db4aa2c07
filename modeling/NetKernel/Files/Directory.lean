import NetKernel.Files.Ext2
import NetKernel.Lib.Loops

/-! Directories of an ext2 file system: the walk over the records of a directory, lookup
and count by it, and the nodes the records lead to. The walk goes from record to record by
the length each has on the disk. -/
namespace NetKernel.Directories
open FlatMemory Blocks Loops Ext2 Relation

/-- A `Node` with its number and mode; `file` is its data and the device. -/
structure Inode where
  number : UInt32
  mode : UInt16
  file : Node

def Inode.getType (nd : Inode) : UInt16 := nd.mode >>> 12

def Inode.isDir (nd : Inode) : Bool := nd.getType == 4

def Inode.isFile (nd : Inode) : Bool := nd.getType == 8

/-- What `entries` reads of one record. -/
structure DirEntry where
  inode : UInt32
  totalSize : UInt16
  name : List UInt8
deriving DecidableEq

/-- The reads of one round, in 32-bit offsets; `none` is a failed assertion. -/
def readEntry (io : BlockIo) (offset : Nat) : Option DirEntry := do
  let inode ← io.readExact offset 4
  let totalSize ← io.readExact ((offset+4) % 2^32) 2
  let nameLength ← io.readExact ((offset+6) % 2^32) 1
  let name ← io.readExact ((offset+8) % 2^32) (littleEndian nameLength)
  return ⟨UInt32.ofNat (littleEndian inode), UInt16.ofNat (littleEndian totalSize), name⟩

/-- `acc` is what `work` has captured. -/
structure Walk (γ : Type*) where
  offset : Nat
  acc : γ

/-- One round of `entries`. -/
def entriesBody {γ : Type*} (io : BlockIo) (work : γ → UInt32 → List UInt8 → γ) (s : Walk γ) :
    Walk γ ⊕ Option γ :=
  if s.offset < io.sizeInBytes then
    match readEntry io s.offset with
    | none => .inr none
    | some e => .inl ⟨(s.offset+e.totalSize.toNat) % 2^32, work s.acc e.inode e.name⟩
  else .inr (some s.acc)

/-- `entries(work)` ends with `r`, which is `none` where an assertion failed. -/
def Inode.Entries {γ : Type*} (nd : Inode) (work : γ → UInt32 → List UInt8 → γ) (acc : γ)
    (r : Option γ) : Prop :=
  if nd.isDir then Returns (entriesBody nd.file.blockIo work) ⟨0, acc⟩ r else r = none

/-- `streq`; a list is the characters of a string up to a zero or its end. -/
def streq : List UInt8 → List UInt8 → Bool
  | [], b => b.headD 0 == 0
  | x :: a, b => if x ≠ b.headD 0 then false else if x = 0 then true else streq a b.tail

def findWork (name : List UInt8) (out number : UInt32) (nm : List UInt8) : UInt32 :=
  if streq name nm then number else out

def Inode.Find (nd : Inode) (name : List UInt8) (r : Option UInt32) : Prop :=
  nd.Entries (findWork name) 0 r

/-- `Node::entry_count`; its own assertion is the one of `entries`. -/
def Inode.EntryCount (nd : Inode) (r : Option UInt32) : Prop :=
  nd.Entries (fun count _ _ => count+1) 0 r

/-! Does the walk end? -/

section Walk
variable (io : BlockIo)

/-- The record at `a` is followed by one at `b`. -/
def Follows (a b : Nat) : Prop :=
  a < io.sizeInBytes ∧ ∃ e, readEntry io a = some e ∧ b = (a+e.totalSize.toNat) % 2^32

/-- From the start of the directory the record lengths lead back to a record already met. -/
def ComesBack : Prop := ∃ a, ReflTransGen (Follows io) 0 a ∧ TransGen (Follows io) a a

/-- The walk without what `work` does. -/
def nextOffset (a : Nat) : Nat ⊕ Unit :=
  if a < io.sizeInBytes then
    match readEntry io a with
    | none => .inr ()
    | some e => .inl ((a+e.totalSize.toNat) % 2^32)
  else .inr ()

variable {io} {γ : Type*} {work : γ → UInt32 → List UInt8 → γ} {acc : γ} {a b : Nat}

theorem entriesBody_inside (h : a < io.sizeInBytes) : entriesBody io work ⟨a, acc⟩ =
    match readEntry io a with
    | none => .inr none
    | some e => .inl ⟨(a+e.totalSize.toNat) % 2^32, work acc e.inode e.name⟩ := if_pos h

theorem entriesBody_end (h : ¬ a < io.sizeInBytes) :
    entriesBody io work ⟨a, acc⟩ = .inr (some acc) := if_neg h

theorem returns_offsets : (∃ r, Returns (entriesBody io work) ⟨0, acc⟩ r) ↔
    ∃ r, Returns (nextOffset io) 0 r := by
  refine returns_along (fun s : Walk γ => s.offset) (fun s t h => ?_) fun _ _ h => ?_
  · rw [entriesBody] at h
    rw [nextOffset]
    split at h
    · rename_i hlt
      rw [if_pos hlt]
      split at h
      · cases h
      · cases h
        rfl
    · cases h
  · rename_i s r
    rw [entriesBody] at h
    rw [nextOffset]
    split at h
    · rename_i hlt
      rw [if_pos hlt]
      split at h
      · exact ⟨(), rfl⟩
      · cases h
    · rename_i hlt
      exact ⟨(), if_neg hlt⟩

theorem follows_eq : Follows io = Leads (nextOffset io) := by
  funext a b
  rw [Follows, Leads, nextOffset]
  by_cases hlt : a < io.sizeInBytes
  · rw [if_pos hlt]
    cases readEntry io a with
    | none => simp
    | some e => simp [hlt, eq_comm]
  · simp [hlt]

theorem follows_lt (h : ReflTransGen (Follows io) 0 a) : a < 2^32 := by
  cases h with
  | refl => decide
  | tail _ h =>
    obtain ⟨-,e,-,rfl⟩ := h
    exact Nat.mod_lt _ (by decide)

theorem walk_ends_iff : (∃ r, Returns (entriesBody io work) ⟨0, acc⟩ r) ↔ ¬ ComesBack io := by
  have hfin : {t | ReflTransGen (Leads (nextOffset io)) 0 t}.Finite :=
    (Set.finite_lt_nat (2^32)).subset fun t ht => by
      have hreach : ReflTransGen (Follows io) 0 t := by
        rw [follows_eq]
        exact ht
      exact follows_lt hreach
  rw [returns_offsets, returns_iff_acyclic hfin, ComesBack, follows_eq]
  simp only [not_exists, not_and]

/-- Short of 2^32 by the longest record length no step wraps: then only an empty record
leads back. -/
theorem comesBack_iff (hsize : io.sizeInBytes+65535 ≤ 2^32) : ComesBack io ↔
    ∃ a e, ReflTransGen (Follows io) 0 a ∧ a < io.sizeInBytes ∧ readEntry io a = some e ∧
      e.totalSize = 0 := by
  have hnext {a b : Nat} {e : DirEntry} (ha : a < io.sizeInBytes)
      (hb : b = (a+e.totalSize.toNat) % 2^32) : b = a+e.totalSize.toNat := by
    have hlt := e.totalSize.toNat_lt
    rw [hb]
    exact Nat.mod_eq_of_lt (by omega)
  have hup {a b : Nat} (h : ReflTransGen (Follows io) a b) : a ≤ b := by
    induction h with
    | refl => exact Nat.le_refl _
    | tail _ h ih =>
      obtain ⟨ha,e,-,hb⟩ := h
      exact Nat.le_trans ih (hnext ha hb ▸ Nat.le_add_right _ _)
  constructor
  · rintro ⟨a,hreach,hback⟩
    obtain ⟨b,hab,hba⟩ := TransGen.head'_iff.mp hback
    have hle : b ≤ a := hup hba
    obtain ⟨ha,e,he,hb⟩ := hab
    refine ⟨a, e, hreach, ha, he, ?_⟩
    have := hnext ha hb
    exact UInt16.toNat_inj.mp (by rw [UInt16.toNat_zero]; omega)
  · rintro ⟨a,e,hreach,ha,he,hz⟩
    refine ⟨a, hreach, TransGen.single ⟨ha, e, he, ?_⟩⟩
    rw [hz, UInt16.toNat_zero, Nat.add_zero, Nat.mod_eq_of_lt (follows_lt hreach)]

end Walk

section Ends
variable {nd : Inode} {γ : Type*} {work : γ → UInt32 → List UInt8 → γ} {acc : γ}

theorem entries_ends_iff : (∃ r, nd.Entries work acc r) ↔
    (nd.isDir = true → ¬ ComesBack nd.file.blockIo) := by
  have hends : (∃ r, Returns (entriesBody nd.file.blockIo work) ⟨0, acc⟩ r) ↔
      ¬ ComesBack nd.file.blockIo := walk_ends_iff
  rw [← hends]
  simp only [Inode.Entries]
  by_cases hd : nd.isDir = true
  · simp only [if_pos hd]
    exact (imp_iff_right hd).symm
  · simp [hd]

end Ends

/-- `entries` ends, at the end of the directory or at a failed assertion, exactly when the
record lengths never lead back; so do lookup and count. Short of 2^32 by the longest record
length they lead back exactly where a record met has length 0. -/
theorem directory_walk_ends (nd : Inode) :
    (∀ (γ : Type) (work : γ → UInt32 → List UInt8 → γ) (acc : γ),
      (∃ r, nd.Entries work acc r) ↔ (nd.isDir = true → ¬ ComesBack nd.file.blockIo)) ∧
    (∀ name, (∃ r, nd.Find name r) ↔ (nd.isDir = true → ¬ ComesBack nd.file.blockIo)) ∧
    ((∃ r, nd.EntryCount r) ↔ (nd.isDir = true → ¬ ComesBack nd.file.blockIo)) ∧
    (nd.file.blockIo.sizeInBytes+65535 ≤ 2^32 → (ComesBack nd.file.blockIo ↔
      ∃ a e, ReflTransGen (Follows nd.file.blockIo) 0 a ∧ a < nd.file.blockIo.sizeInBytes ∧
        readEntry nd.file.blockIo a = some e ∧ e.totalSize = 0)) :=
  ⟨fun _ _ _ => entries_ends_iff, fun _ => entries_ends_iff, entries_ends_iff, comesBack_iff⟩

/-- A directory of one block of 1024 bytes, which begins with `xs`. -/
def oneBlockDirectory (xs : List UInt8) : Inode where
  number := 2
  mode := 0x41ed
  file := Image.node
    ⟨⟨8192, fun a => if 3072 ≤ a then xs.getD (a-3072) 0 else 0⟩, 0, smallImage.log_lt⟩
    (oneBlock 1024 0)

/-- The name "a" in a record of the whole block: no record met has length 0. -/
theorem directory_walk_ends_whole :
    ∃ r, (oneBlockDirectory [12, 0, 0, 0, 0, 4, 1, 1, 97]).Find [97] r := by
  generalize hnd : oneBlockDirectory [12, 0, 0, 0, 0, 4, 1, 1, 97] = nd
  have hsize : nd.file.blockIo.sizeInBytes = 1024 := hnd ▸ rfl
  have hentry : readEntry nd.file.blockIo 0 = some ⟨12, 1024, [97]⟩ := by
    rw [← hnd]
    decide +kernel
  obtain ⟨-,hfind,-,hback⟩ := directory_walk_ends nd
  refine (hfind [97]).mpr fun _ hcomes => ?_
  obtain ⟨a,e,hreach,ha,he,hz⟩ := (hback (by rw [hsize]; decide)).mp hcomes
  have hnext {b c : Nat} (h : Follows nd.file.blockIo b c) (hb : b = 0) : c = 1024 := by
    obtain ⟨-,e,he,hc⟩ := h
    rw [hb, hentry] at he
    cases he
    rw [hc, hb]
    rfl
  obtain rfl | ⟨b,hfirst,hrest⟩ := hreach.cases_head
  · rw [hentry] at he
    cases he
    cases hz
  · have hb := hnext hfirst rfl
    obtain rfl | ⟨c,hsecond,-⟩ := hrest.cases_head
    · omega
    · have := hsecond.1
      omega

/-- In a block of zeros the first record has length 0, and the walk stays there. -/
theorem walk_never_ends : ¬ ∀ nd : Inode, ∃ r, nd.Find [104] r := by
  intro hall
  have hentry : readEntry (oneBlockDirectory []).file.blockIo 0 = some ⟨0, 0, []⟩ := by
    decide +kernel
  have hback : ComesBack (oneBlockDirectory []).file.blockIo :=
    ⟨0, ReflTransGen.refl, TransGen.single ⟨by decide, _, hentry, rfl⟩⟩
  exact entries_ends_iff.mp (hall (oneBlockDirectory [])) rfl hback

end NetKernel.Directories
