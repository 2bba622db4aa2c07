import NetKernel.Memory.PageTable
import NetKernel.Memory.Vmes

/-! `user_buffer_ok`, the check of the pointers that a system call gets. -/
namespace NetKernel.UserBuffer
open PageTables
open Frames (Ram)
open Heaps (wrap sub64)
open Vmes (privateBase)

/-- The test of a page in the loop. -/
def userPage (ram : Ram) (root va : Nat) : Bool :=
  match findPte ram 3 root (va >>> 12) with
  | none => false
  | some (table, index) => present (ram table index) && user (ram table index)

/-- The loop from the page at `va`, where `last_page` is `n` pages on. -/
def pagesOk (ram : Ram) (root : Nat) : Nat → Nat → Bool
  | 0, va => userPage ram root va
  | n+1, va => if userPage ram root va then pagesOk ram root n (wrap (va+pageSize)) else false

def pageAlignDown (value : Nat) : Nat := value / pageSize * pageSize

def userBufferOk (ram : Ram) (root hhdmOffset start length : Nat) : Bool :=
  if length = 0 then decide (start < hhdmOffset)
  else if start < privateBase ∨ hhdmOffset ≤ start then false
  else
    let finish := sub64 (wrap (start+length)) 1
    if finish < start ∨ hhdmOffset ≤ finish then false
    else
      let firstPage := pageAlignDown start
      let lastPage := pageAlignDown finish
      pagesOk ram root ((lastPage-firstPage) / pageSize) firstPage

/-- The leaf entry at which the processor's walk ends; bit 7 of an entry of the top level is
reserved. -/
def leafEntry (ram : Ram) : Nat → Nat → Nat → Option Nat
  | 0, table, vpn =>
    let entry := ram table (tableIndex vpn 0)
    if present entry then some entry else none
  | level+1, table, vpn =>
    let entry := ram table (tableIndex vpn (level+1))
    if present entry = false then none
    else if huge entry && level == 2 then none
    else if isLarge (level+1) entry then some entry
    else leafEntry ram level (entryAddr entry / pageSize) vpn

/-- The processor translates `va`, through a leaf entry with the user bit. -/
def Translated (ram : Ram) (root va : Nat) : Prop :=
  ∃ leaf entry, walk ram 3 root (va / pageSize) = some leaf ∧
    leafEntry ram 3 root (va / pageSize) = some entry ∧ user entry = true

/-- Every byte of a buffer is a lower-half one with a translation. -/
def Sound (ram : Ram) (root addr length : Nat) : Prop :=
  ∀ i < length, addr+i < 2^64 ∧ addr+i < 2^47 ∧ Translated ram root (addr+i)

/-- The entries that the low 36 bits of a page number select, each table taken from bits 12
to 47 of the entry above, end at a user page. -/
def UserWay (ram : Ram) : Nat → Nat → Nat → Prop
  | 0, table, vpn => present (ram table (tableIndex vpn 0)) = true ∧
      user (ram table (tableIndex vpn 0)) = true
  | level+1, table, vpn => IsTable (level+1) (ram table (tableIndex vpn (level+1))) ∧
      UserWay ram level (entryPpn (ram table (tableIndex vpn (level+1)))) vpn

/-- The entries on that way lead the processor to the same tables: bit 7 of the top one is
clear, and so are bits 48 to 51, or else they lead it to another user page. -/
def ReadAlike (ram : Ram) : Nat → Nat → Nat → Prop
  | 0, _, _ => True
  | level+1, table, vpn =>
    let entry := ram table (tableIndex vpn (level+1))
    (huge entry && level == 2) = false ∧
      (entryAddr entry / pageSize = entryPpn entry ∧ ReadAlike ram level (entryPpn entry) vpn ∨
        ∃ leaf, leafEntry ram level (entryAddr entry / pageSize) vpn = some leaf ∧
          user leaf = true)

variable {ram : Ram} {root va vpn level table n : Nat}

theorem leafEntry_walk {entry : Nat} (h : leafEntry ram level table vpn = some entry) :
    ∃ leaf, walk ram level table vpn = some leaf := by
  induction level generalizing table with
  | zero =>
    simp only [leafEntry] at h
    split at h
    · rename_i hp
      exact ⟨_, if_pos hp⟩
    · cases h
  | succ level ih =>
    simp only [leafEntry] at h
    simp only [walk]
    split at h
    · cases h
    split at h
    · cases h
    rename_i hp _
    rw [if_neg hp]
    split at h
    · rename_i hl
      exact ⟨_, if_pos hl⟩
    · rename_i hl
      obtain ⟨leaf,hw⟩ := ih h
      rw [if_neg hl, hw]
      exact ⟨_, rfl⟩

theorem UserWay.leafEntry_iff (h : UserWay ram level table vpn) :
    (∃ entry, leafEntry ram level table vpn = some entry ∧ user entry = true) ↔
      ReadAlike ram level table vpn := by
  induction level generalizing table with
  | zero => exact ⟨fun _ => trivial, fun _ => ⟨_, if_pos h.1, h.2⟩⟩
  | succ level ih =>
    obtain ⟨⟨hp,hl⟩,hway⟩ := h
    simp only [leafEntry, hp, hl, ReadAlike, Bool.true_eq_false, Bool.false_eq_true, if_false]
    constructor
    · rintro ⟨entry,he,hu⟩
      split at he
      · cases he
      · rename_i htop
        exact ⟨Bool.eq_false_iff.mpr htop, Or.inr ⟨entry, he, hu⟩⟩
    · rintro ⟨htop,⟨haddr,halike⟩ | hleaf⟩
      · rw [htop, haddr]
        exact (ih hway).mpr halike
      · rw [htop]
        exact hleaf

theorem translated_iff (h : UserWay ram 3 root (va / pageSize)) :
    Translated ram root va ↔ ReadAlike ram 3 root (va / pageSize) := by
  rw [← h.leafEntry_iff]
  constructor
  · rintro ⟨-,entry,-,he,hu⟩
    exact ⟨entry, he, hu⟩
  · rintro ⟨entry,he,hu⟩
    obtain ⟨leaf,hw⟩ := leafEntry_walk he
    exact ⟨leaf, entry, hw, he, hu⟩

theorem readAlike_of (h : ∀ f i, huge (ram f i) = false ∧
    entryAddr (ram f i) / pageSize = entryPpn (ram f i)) : ReadAlike ram level table vpn := by
  induction level generalizing table with
  | zero => trivial
  | succ level ih =>
    obtain ⟨hhuge,haddr⟩ := h table (tableIndex vpn (level+1))
    exact ⟨by rw [hhuge, Bool.false_and], Or.inl ⟨haddr, ih⟩⟩

theorem findPte_userWay : UserWay ram level table vpn ↔
    ∃ f i, findPte ram level table vpn = some (f, i) ∧
      present (ram f i) = true ∧ user (ram f i) = true := by
  induction level generalizing table with
  | zero =>
    simp only [UserWay, findPte]
    constructor
    · rintro ⟨hp,hu⟩
      exact ⟨table, _, if_pos hp, hp, hu⟩
    · rintro ⟨f,i,hf,hp,hu⟩
      split at hf
      · cases hf
        exact ⟨hp, hu⟩
      · cases hf
  | succ level ih =>
    simp only [UserWay, findPte, IsTable, ih]
    constructor
    · rintro ⟨⟨hp,hl⟩,hfind⟩
      rw [if_neg (by rw [hp]; decide), if_neg (by rw [hl]; decide)]
      exact hfind
    · rintro ⟨f,i,hf,hleaf⟩
      split at hf
      · cases hf
      split at hf
      · cases hf
      · rename_i hp hl
        exact ⟨⟨by simpa using hp, by simpa using hl⟩, f, i, hf, hleaf⟩

theorem userPage_iff : userPage ram root va = true ↔ UserWay ram 3 root (va / pageSize) := by
  have hshift : va >>> 12 = va / pageSize := Nat.shiftRight_eq_div_pow va 12
  rw [findPte_userWay, userPage, hshift]
  split
  · rename_i hf
    simp [hf]
  · rename_i table index hf
    simp [hf]

theorem pagesOk_iff (h : va+n*pageSize < 2^64) : pagesOk ram root n va = true ↔
    ∀ k ≤ n, UserWay ram 3 root ((va+k*pageSize) / pageSize) := by
  induction n generalizing va with
  | zero =>
    rw [pagesOk, userPage_iff]
    refine ⟨fun hv k hk => ?_, fun hv => ?_⟩
    · obtain rfl := Nat.le_zero.mp hk
      simpa using hv
    · simpa using hv 0 (Nat.le_refl 0)
  | succ n ih =>
    have hnext : wrap (va+pageSize) = va+pageSize := by
      rw [wrap]
      simp only [pageSize] at *
      omega
    have hcount (k : Nat) : va+pageSize+k*pageSize = va+(k+1)*pageSize := by
      rw [Nat.add_mul, Nat.one_mul]
      omega
    rw [pagesOk, hnext]
    split
    · rename_i hv
      rw [ih (by rw [hcount]; exact h)]
      refine ⟨fun hall k hk => ?_, fun hall k hk => ?_⟩
      · cases k with
        | zero => simpa using userPage_iff.mp hv
        | succ k =>
          rw [← hcount]
          exact hall k (by omega)
      · rw [hcount]
        exact hall (k+1) (by omega)
    · rename_i hv
      refine ⟨fun hf => absurd hf (by decide), fun hall => absurd ?_ hv⟩
      have hfirst := hall 0 (Nat.zero_le _)
      rw [Nat.zero_mul, Nat.add_zero] at hfirst
      exact userPage_iff.mpr hfirst

theorem pages_of_bytes {start length : Nat} (hl : 0 < length) :
    (∀ k ≤ (pageAlignDown (start+length-1)-pageAlignDown start) / pageSize,
      UserWay ram 3 root ((pageAlignDown start+k*pageSize) / pageSize)) ↔
        ∀ i < length, UserWay ram 3 root ((start+i) / pageSize) := by
  simp only [pageAlignDown, pageSize]
  constructor
  · intro h i hi
    have hpage := h ((start+i) / 4096-start / 4096) (by omega)
    rwa [show (start / 4096*4096+((start+i) / 4096-start / 4096)*4096) / 4096 =
      (start+i) / 4096 by omega] at hpage
  · intro h k hk
    have hbyte := h ((start / 4096+k)*4096-start) (by omega)
    rwa [show (start+((start / 4096+k)*4096-start)) / 4096 =
      (start / 4096*4096+k*4096) / 4096 by omega] at hbyte

theorem userBufferOk_iff {hhdmOffset start length : Nat} (hh : hhdmOffset < 2^64)
    (hs : start < 2^64) (hl : 0 < length) (hl' : length < 2^64) :
    userBufferOk ram root hhdmOffset start length = true ↔
      privateBase ≤ start ∧ start+length ≤ hhdmOffset ∧
        ∀ i < length, UserWay ram 3 root ((start+i) / pageSize) := by
  rw [userBufferOk, if_neg (by omega)]
  by_cases hrange : privateBase ≤ start ∧ start+length ≤ hhdmOffset
  · have hfinish : sub64 (wrap (start+length)) 1 = start+length-1 := by
      simp only [sub64, wrap]
      omega
    have hlast : pageAlignDown start+
        (pageAlignDown (start+length-1)-pageAlignDown start) / pageSize*pageSize < 2^64 := by
      simp only [pageAlignDown, pageSize]
      omega
    rw [if_neg (by omega), hfinish, if_neg (by omega), pagesOk_iff hlast, pages_of_bytes hl]
    simp only [hrange, true_and]
  · have hfinish : privateBase ≤ start → start < hhdmOffset →
        sub64 (wrap (start+length)) 1 < start ∨ hhdmOffset ≤ sub64 (wrap (start+length)) 1 := by
      intro hlo hhi
      have hlong : hhdmOffset < start+length := by omega
      simp only [sub64, wrap]
      omega
    refine ⟨fun hok => ?_, fun hall => absurd ⟨hall.1, hall.2.1⟩ hrange⟩
    split at hok
    · cases hok
    · rename_i hstart
      rw [if_pos (hfinish (by omega) (by omega))] at hok
      cases hok

def everyPage : Ram := fun _ _ => makeEntry 0 true true

theorem userWay_everyPage : UserWay everyPage level table vpn := by
  induction level generalizing table with
  | zero => exact ⟨present_makeEntry, user_makeEntry⟩
  | succ level ih => exact ⟨isTable_makeEntry, ih⟩

theorem readAlike_everyPage : ReadAlike everyPage level table vpn :=
  readAlike_of fun _ _ => ⟨huge_makeEntry, by
    rw [everyPage, entryAddr_makeEntry, entryPpn_makeEntry (by decide), Nat.zero_mod, Nat.zero_mul,
      Nat.zero_div]⟩

/-- The check is sound for a buffer that ends in the lower half and whose tables the
processor reads as the check does, and for one that is not in the range of the check or has a
byte that leads to no user page; for no other. Over all tables that are read alike it is
sound for the buffers that end in the lower half or are outside the range: an address between
the halves is taken for one of the lower half. -/
theorem user_buffer_sound_iff (hhdmOffset addr length : UInt64) (hl : 0 < length.toNat) :
    (∀ (ram : Ram) (root : Nat),
      (userBufferOk ram root hhdmOffset.toNat addr.toNat length.toNat = true →
        Sound ram root addr.toNat length.toNat) ↔
      (addr.toNat+length.toNat ≤ 2^47 ∧
          ∀ i < length.toNat, ReadAlike ram 3 root ((addr.toNat+i) / pageSize)) ∨
        addr.toNat < privateBase ∨ hhdmOffset.toNat < addr.toNat+length.toNat ∨
          ∃ i < length.toNat, ¬UserWay ram 3 root ((addr.toNat+i) / pageSize)) ∧
    ((∀ (ram : Ram) (root : Nat), (∀ vpn, ReadAlike ram 3 root vpn) →
      userBufferOk ram root hhdmOffset.toNat addr.toNat length.toNat = true →
        Sound ram root addr.toNat length.toNat) ↔
      addr.toNat+length.toNat ≤ 2^47 ∨ addr.toNat < privateBase ∨
        hhdmOffset.toNat < addr.toNat+length.toNat) := by
  have hok (ram : Ram) (root : Nat) := @userBufferOk_iff ram root hhdmOffset.toNat addr.toNat
    length.toNat hhdmOffset.toNat_lt addr.toNat_lt hl length.toNat_lt
  have hlow (ram : Ram) (root : Nat) (hlow : addr.toNat+length.toNat ≤ 2^47)
      (halike : ∀ i < length.toNat, ReadAlike ram 3 root ((addr.toNat+i) / pageSize))
      (hall : ∀ i < length.toNat, UserWay ram 3 root ((addr.toNat+i) / pageSize)) :
      Sound ram root addr.toNat length.toNat := fun i hi =>
    ⟨by omega, by omega, (translated_iff (hall i hi)).mpr (halike i hi)⟩
  constructor
  · intro ram root
    rw [hok]
    constructor
    · intro h
      by_contra hnot
      simp only [not_or, not_exists, not_and, not_not] at hnot
      obtain ⟨hend,hbase,htop,hall⟩ := hnot
      have hsound := h ⟨by omega, by omega, hall⟩
      have hlast := (hsound (length.toNat-1) (by omega)).2.1
      exact hend (by omega) fun i hi => (translated_iff (hall i hi)).mp (hsound i hi).2.2
    · rintro (⟨hend,halike⟩ | hbase | htop | ⟨i,hi,hnot⟩) ⟨hlo,hhi,hall⟩
      · exact hlow ram root hend halike hall
      · omega
      · omega
      · exact absurd (hall i hi) hnot
  · constructor
    · intro h
      by_contra hnot
      have hsound := h everyPage 0 (fun _ => readAlike_everyPage)
        ((hok _ _).mpr ⟨by omega, by omega, fun i hi => userWay_everyPage⟩)
      have hlast := (hsound (length.toNat-1) (by omega)).2.1
      omega
    · intro hnum ram root halike hpass
      obtain ⟨hlo,hhi,hall⟩ := (hok ram root).mp hpass
      exact hlow ram root (by omega) (fun i _ => halike _) hall

def onePage : Ram := fun f i =>
  if f < 4 ∧ i = 0 then makeEntry (f+1) true true
  else if f = 4 ∧ i = 5 then makeEntry 9 true true else 0

theorem user_buffer_sound_onePage :
    userBufferOk onePage 1 0xFFFF800000000000 0x5000 4096 = true ∧
      Sound onePage 1 0x5000 4096 ∧
        ∀ (ram : Ram) (root : Nat), (∀ vpn, ReadAlike ram 3 root vpn) →
          userBufferOk ram root 0xFFFF800000000000 0x5000 4096 = true →
            Sound ram root 0x5000 4096 := by
  have hok : userBufferOk onePage 1 0xFFFF800000000000 0x5000 4096 = true := by decide +kernel
  have halike (vpn : Nat) : ReadAlike onePage 3 1 vpn := readAlike_of fun f i => by
    rw [onePage]
    split
    · rename_i hf
      rw [entryAddr_makeEntry, entryPpn_makeEntry (by omega)]
      exact ⟨huge_makeEntry, by simp only [pageSize]; omega⟩
    · split <;> exact ⟨by decide, by decide⟩
  obtain ⟨hiff,hnum⟩ := user_buffer_sound_iff 0xFFFF800000000000 0x5000 4096 (by decide)
  exact ⟨hok, (hiff onePage 1).mpr (Or.inl ⟨by decide, fun i _ => halike _⟩) hok,
    hnum.mpr (Or.inl (by decide))⟩

/-- A byte at 2^48+0x5000 passes for the one at 0x5000. -/
theorem user_buffer_aliased :
    ¬∀ (ram : Ram) (root : Nat) (hhdmOffset addr length : UInt64),
      2^64-2^47 ≤ hhdmOffset.toNat → 0 < length.toNat →
        userBufferOk ram root hhdmOffset.toNat addr.toNat length.toNat = true →
          Sound ram root addr.toNat length.toNat := by
  intro h
  have hsound := h onePage 1 0xFFFF800000000000 0x1000000005000 1 (by decide) (by decide)
    (by decide +kernel)
  exact absurd (hsound 0 (by decide)).2.1 (by decide)

end NetKernel.UserBuffer
