import NetKernel.Memory.PageTable

/-! `fork_from`, as far as it copies the user pages of a parent into the page tables of a
child. What becomes of the list of VMEs is in another module. -/
namespace NetKernel.Fork
open Function PageTables
open Frames (Ram zeroFrame)

/-- Memory, and the frames that `physMem.alloc` is going to return. -/
abbrev State : Type := Ram × List Nat

/-- `memcpy` of a page. -/
def copyFrame (ram : Ram) (dst src : Nat) : Ram :=
  update ram dst fun i => if i < 512 then ram src i else ram dst i

/-- A user page, its number and its entry, goes into the tables of `child`. -/
def clonePage (child : Nat) (s : State) (page : Nat × Nat) : Option State :=
  match alloc s.1 s.2 with
  | none => none
  | some (dst, ram, pool) =>
    map (copyFrame ram dst (entryPpn page.2)) pool child 3 page.1 dst true (write page.2)

/-- `base_vpn | (i << (level * 9))`. -/
def vpnBits (base level i : Nat) : Nat := base ||| i <<< (level*9)

/-- A loop over the entries of a table that skips those not present. -/
def eachEntry (n table : Nat) (visit : Nat → Nat → State → Option State) (s : State) :
    Option State :=
  (List.range n).foldlM (fun s i =>
    let entry := s.1 table i
    if present entry then visit i entry s else some s) s

/-- `clone_user_pages`; a large page is the panic. -/
def cloneUserPages (child : Nat) : Nat → Nat → Nat → State → Option State
  | 0, table, base => eachEntry 512 table fun i entry s =>
      if user entry then clonePage child s (vpnBits base 0 i, entry) else some s
  | level+1, table, base => eachEntry 512 table fun i entry s =>
      if huge entry then none
      else cloneUserPages child level (entryPpn entry) (vpnBits base (level+1) i) s

/-- `fork_from` of the tables from `parent`, where those from `child` are the current ones. -/
def forkFrom (parent child : Nat) : State → Option State :=
  eachEntry 256 parent fun i entry s => cloneUserPages child 2 (entryPpn entry) (i <<< 27) s

/-! What a parent has in its lower half. -/

def userEntry (ram : Ram) (level table vpn : Nat) : Option Nat :=
  ((findPte ram level table vpn).map fun pte => ram pte.1 pte.2).filter user

def Small (ram : Ram) : Nat → Nat → Prop
  | 0, _ => True
  | level+1, table => ∀ i < 512, present (ram table i) = true →
      huge (ram table i) = false ∧ Small ram level (entryPpn (ram table i))

def SmallPages (ram : Ram) (root : Nat) : Prop :=
  ∀ i < 256, present (ram root i) = true → Small ram 2 (entryPpn (ram root i))

def Holds (ram : Ram) : Nat → Nat → Nat → Prop
  | 0, page, f => f = page
  | level+1, table, f => f = table ∨ ∃ i < 512, present (ram table i) = true ∧
      Holds ram level (entryPpn (ram table i)) f

def LowerFrame (ram : Ram) (root f : Nat) : Prop :=
  f = root ∨ ∃ i < 256, present (ram root i) = true ∧ Holds ram 3 (entryPpn (ram root i)) f

/-! The pages that a fork copies, as a list. -/

def entries (ram : Ram) (n table : Nat) (found : Nat → Nat → List (Nat × Nat)) :
    List (Nat × Nat) :=
  (List.range n).flatMap fun i => if present (ram table i) then found i (ram table i) else []

def pages (ram : Ram) : Nat → Nat → Nat → List (Nat × Nat)
  | 0, table, base => entries ram 512 table fun i entry =>
      if user entry then [(vpnBits base 0 i, entry)] else []
  | level+1, table, base => entries ram 512 table fun i entry =>
      pages ram level (entryPpn entry) (vpnBits base (level+1) i)

def userPages (ram : Ram) (root : Nat) : List (Nat × Nat) :=
  entries ram 256 root fun i entry => pages ram 2 (entryPpn entry) (i <<< 27)

variable {ram ram' : Ram} {n level table base vpn entry : Nat} {page : Nat × Nat}
  {found : Nat → Nat → List (Nat × Nat)}

theorem holds_self : Holds ram level table table := by
  cases level with
  | zero => rfl
  | succ level => exact Or.inl rfl

theorem Small.congr (hs : Small ram level table)
    (h : ∀ f, Holds ram (level+1) table f → ram' f = ram f) : Small ram' level table := by
  induction level generalizing table with
  | zero => trivial
  | succ level ih =>
    intro i hi hp
    rw [h table holds_self] at hp ⊢
    obtain ⟨hh,hchild⟩ := hs i hi hp
    exact ⟨hh, ih hchild fun f hf => h f (Or.inr ⟨i, hi, hp, hf⟩)⟩

theorem Holds.of_congr {f : Nat} (h : ∀ f, Holds ram level table f → ram' f = ram f)
    (hf : Holds ram' level table f) : Holds ram level table f := by
  induction level generalizing table with
  | zero => exact hf
  | succ level ih =>
    obtain rfl | ⟨i,hi,hp,hf⟩ := hf
    · exact holds_self
    · rw [h table holds_self] at hp hf
      exact Or.inr ⟨i, hi, hp, ih (fun f hf => h f (Or.inr ⟨i, hi, hp, hf⟩)) hf⟩

theorem SmallPages.congr {root : Nat} (hs : SmallPages ram root)
    (h : ∀ f, LowerFrame ram root f → ram' f = ram f) : SmallPages ram' root := by
  intro i hi hp
  rw [h root (Or.inl rfl)] at hp ⊢
  exact (hs i hi hp).congr fun f hf => h f (Or.inr ⟨i, hi, hp, hf⟩)

theorem LowerFrame.of_congr {root f : Nat} (h : ∀ f, LowerFrame ram root f → ram' f = ram f)
    (hf : LowerFrame ram' root f) : LowerFrame ram root f := by
  obtain rfl | ⟨i,hi,hp,hf⟩ := hf
  · exact Or.inl rfl
  · rw [h root (Or.inl rfl)] at hp hf
    exact Or.inr ⟨i, hi, hp, hf.of_congr fun f hf => h f (Or.inr ⟨i, hi, hp, hf⟩)⟩

theorem mem_entries : page ∈ entries ram n table found ↔
    ∃ i < n, present (ram table i) = true ∧ page ∈ found i (ram table i) := by
  simp only [entries, List.mem_flatMap, List.mem_range]
  refine exists_congr fun i => and_congr_right fun _ => ?_
  split <;> simp_all

theorem entries_succ : entries ram (n+1) table found =
    entries ram n table found ++ if present (ram table n) then found n (ram table n) else [] := by
  simp [entries, List.range_succ]

theorem vpnBits_eq {i : Nat} (hb : base % 512^(level+1) = 0) (hi : i < 512) :
    vpnBits base level i = base+i*512^level := by
  have hpow : 512^(level+1) = 2^(level*9+9) := by
    rw [show 512 = 2^9 from rfl, ← Nat.pow_mul]
    congr 1
    omega
  obtain ⟨k,rfl⟩ := Nat.dvd_of_mod_eq_zero hb
  have hlt : i*2^(level*9) < 2^(level*9+9) := by
    rw [Nat.pow_add, Nat.mul_comm]
    exact Nat.mul_lt_mul_of_pos_left hi (Nat.two_pow_pos _)
  rw [vpnBits, Nat.shiftLeft_eq, hpow, ← Nat.two_pow_add_eq_or_of_lt hlt]
  rw [show 512 = 2^9 from rfl, ← Nat.pow_mul, Nat.mul_comm level 9]

theorem vpnBits_mod {i : Nat} (hb : base % 512^(level+1+1) = 0) (hi : i < 512) :
    vpnBits base (level+1) i % 512^(level+1) = 0 := by
  rw [vpnBits_eq hb hi, Nat.add_mul_mod_self_right]
  exact Nat.mod_eq_zero_of_dvd (Nat.dvd_trans ⟨512, rfl⟩ (Nat.dvd_of_mod_eq_zero hb))

theorem userEntry_zero : userEntry ram 0 table vpn = some entry ↔
    present (ram table (tableIndex vpn 0)) = true ∧
      user (ram table (tableIndex vpn 0)) = true ∧ ram table (tableIndex vpn 0) = entry := by
  simp only [userEntry, findPte]
  split
  · rename_i hp
    simp only [Option.map_some, Option.filter_some, hp, true_and]
    split <;> simp_all
  · rename_i hp
    simp [hp]

theorem userEntry_succ : userEntry ram (level+1) table vpn = some entry ↔
    IsTable (level+1) (ram table (tableIndex vpn (level+1))) ∧
      userEntry ram level (entryPpn (ram table (tableIndex vpn (level+1)))) vpn = some entry := by
  simp only [userEntry, findPte, IsTable]
  split
  · rename_i hp
    simp [hp]
  split
  · rename_i hl
    simp [hl]
  · rename_i hp hl
    simp [hp, hl]

theorem index_range {size i : Nat} (h0 : 0 < size) (hb : base % (size*512) = 0) (hi : i < 512) :
    base+i*size ≤ vpn ∧ vpn < base+i*size+size ↔
      base ≤ vpn ∧ vpn < base+size*512 ∧ vpn / size % 512 = i := by
  obtain ⟨k,rfl⟩ := Nat.dvd_of_mod_eq_zero hb
  have hle (m : Nat) : size*512*k+m*size ≤ vpn ↔ 512*k+m ≤ vpn / size := by
    rw [Nat.le_div_iff_mul_le h0, Nat.add_mul, Nat.mul_comm (512*k), Nat.mul_assoc]
  have h1 := hle i
  have h2 := hle (i+1)
  have h3 := hle 0
  have h4 := hle 512
  rw [Nat.add_mul, Nat.one_mul] at h2
  rw [Nat.zero_mul, Nat.add_zero, Nat.add_zero] at h3
  rw [Nat.mul_comm 512 size] at h4
  omega

theorem mem_pages (hb : base % 512^(level+1) = 0) (hs : Small ram level table) :
    (vpn, entry) ∈ pages ram level table base ↔
      base ≤ vpn ∧ vpn < base+512^(level+1) ∧ userEntry ram level table vpn = some entry := by
  induction level generalizing table base with
  | zero =>
    have hmem {i : Nat} : (vpn, entry) ∈ (if user (ram table i) then
        [(vpnBits base 0 i, ram table i)] else []) ↔
          user (ram table i) = true ∧ vpn = vpnBits base 0 i ∧ entry = ram table i := by
      split <;> simp_all
    simp only [pages, mem_entries, userEntry_zero, tableIndex_eq, hmem]
    constructor
    · rintro ⟨i,hi,hp,hu,rfl,rfl⟩
      rw [vpnBits_eq hb hi]
      have hidx : (base+i*512^0) / 512^0 % 512 = i := by omega
      rw [hidx]
      exact ⟨by omega, by omega, hp, hu, rfl⟩
    · rintro ⟨hlo,hhi,hp,hu,he⟩
      refine ⟨_, Nat.mod_lt _ (by decide), hp, hu, ?_, he.symm⟩
      rw [vpnBits_eq hb (Nat.mod_lt _ (by decide))]
      omega
  | succ level ih =>
    have hpos : 0 < 512^(level+1) := Nat.pow_pos (by decide)
    have hmul : base % (512^(level+1)*512) = 0 := hb
    rw [Nat.pow_succ 512 (level+1)]
    simp only [pages, mem_entries, userEntry_succ, tableIndex_eq]
    have hchild {i : Nat} (hi : i < 512) (hp : present (ram table i) = true) :
        (vpn, entry) ∈ pages ram level (entryPpn (ram table i)) (vpnBits base (level+1) i) ↔
          (base ≤ vpn ∧ vpn < base+512^(level+1)*512 ∧ vpn / 512^(level+1) % 512 = i) ∧
            userEntry ram level (entryPpn (ram table i)) vpn = some entry := by
      rw [ih (vpnBits_mod hb hi) (hs i hi hp).2, vpnBits_eq hb hi, ← index_range hpos hmul hi,
        and_assoc]
    constructor
    · rintro ⟨i,hi,hp,hmem⟩
      obtain ⟨⟨hlo,hhi,rfl⟩,he⟩ := (hchild hi hp).mp hmem
      have hl : isLarge (level+1) (ram table (vpn / 512^(level+1) % 512)) = false := by
        rw [isLarge, (hs _ hi hp).1, Bool.false_and]
      exact ⟨hlo, hhi, ⟨hp, hl⟩, he⟩
    · rintro ⟨hlo,hhi,ht,he⟩
      have hi : vpn / 512^(level+1) % 512 < 512 := Nat.mod_lt _ (by decide)
      exact ⟨_, hi, ht.1, (hchild hi ht.1).mpr ⟨⟨hlo, hhi, rfl⟩, he⟩⟩

theorem nodup_entries (base size : Nat)
    (hfound : ∀ i < n, present (ram table i) = true →
      ((found i (ram table i)).map Prod.fst).Nodup ∧
      ∀ p ∈ found i (ram table i), base+i*size ≤ p.1 ∧ p.1 < base+i*size+size) :
    ((entries ram n table found).map Prod.fst).Nodup ∧
      ∀ p ∈ entries ram n table found, p.1 < base+n*size := by
  induction n with
  | zero => simp [entries]
  | succ n ih =>
    obtain ⟨hnodup,hlt⟩ := ih fun i hi => hfound i (by omega)
    rw [entries_succ]
    split
    · rename_i hp
      obtain ⟨hlast,hrange⟩ := hfound n (Nat.lt_succ_self n) hp
      rw [Nat.add_mul, Nat.one_mul]
      refine ⟨?_, fun p hmem => ?_⟩
      · rw [List.map_append]
        refine List.nodup_append.mpr ⟨hnodup, hlast, fun a ha b hb => ?_⟩
        obtain ⟨p,hp,rfl⟩ := List.mem_map.mp ha
        obtain ⟨q,hq,rfl⟩ := List.mem_map.mp hb
        have := hlt p hp
        have := (hrange q hq).1
        omega
      · obtain hmem | hmem := List.mem_append.mp hmem
        · have := hlt p hmem
          omega
        · have := (hrange p hmem).2
          omega
    · rw [List.append_nil, Nat.add_mul, Nat.one_mul]
      exact ⟨hnodup, fun p hmem => Nat.lt_of_lt_of_le (hlt p hmem) (by omega)⟩

theorem nodup_pages (hb : base % 512^(level+1) = 0) (hs : Small ram level table) :
    ((pages ram level table base).map Prod.fst).Nodup := by
  induction level generalizing table base with
  | zero =>
    refine (nodup_entries base 1 fun i hi _ => ?_).1
    rw [vpnBits_eq hb hi]
    split
    · simp
    · simp
  | succ level ih =>
    refine (nodup_entries base (512^(level+1)) fun i hi hp => ?_).1
    have hchild := (hs i hi hp).2
    have hmod := vpnBits_mod hb hi
    refine ⟨ih hmod hchild, fun p hmem => ?_⟩
    obtain ⟨hlo,hhi,-⟩ := (mem_pages hmod hchild).mp hmem
    rw [vpnBits_eq hb hi] at hlo hhi
    exact ⟨hlo, hhi⟩

theorem pages_holds (h : page ∈ pages ram level table base) :
    Holds ram (level+1) table (entryPpn page.2) := by
  induction level generalizing table base with
  | zero =>
    obtain ⟨i,hi,hp,hmem⟩ := mem_entries.mp h
    split at hmem
    · obtain rfl := List.mem_singleton.mp hmem
      exact Or.inr ⟨i, hi, hp, rfl⟩
    · cases hmem
  | succ level ih =>
    obtain ⟨i,hi,hp,hmem⟩ := mem_entries.mp h
    exact Or.inr ⟨i, hi, hp, ih hmem⟩

theorem slot_eq {i : Nat} : i <<< 27 = i*512^(2+1) := Nat.shiftLeft_eq ..

theorem slot_mod {i : Nat} : i <<< 27 % 512^(2+1) = 0 := by
  rw [slot_eq, Nat.mul_mod_left]

theorem mem_userPages {root : Nat} (hs : SmallPages ram root) :
    (vpn, entry) ∈ userPages ram root ↔
      vpn < 2^35 ∧ userEntry ram 3 root vpn = some entry := by
  have hindex : tableIndex vpn 3 = vpn / 512^3 % 512 := tableIndex_eq
  rw [userPages, mem_entries, userEntry_succ, hindex]
  constructor
  · rintro ⟨i,hi,hp,hmem⟩
    obtain ⟨hlo,hhi,he⟩ := (mem_pages slot_mod (hs i hi hp)).mp hmem
    rw [slot_eq] at hlo hhi
    obtain rfl : vpn / 512^3 % 512 = i := by omega
    exact ⟨by omega, ⟨hp, by simp [isLarge]⟩, he⟩
  · rintro ⟨hvpn,⟨hp,-⟩,he⟩
    have hi : vpn / 512^3 % 512 < 256 := by omega
    refine ⟨_, hi, hp, (mem_pages slot_mod (hs _ hi hp)).mpr ⟨?_, ?_, he⟩⟩
    · rw [slot_eq]
      omega
    · rw [slot_eq]
      omega

theorem nodup_userPages {root : Nat} (hs : SmallPages ram root) :
    ((userPages ram root).map Prod.fst).Nodup := by
  refine (nodup_entries 0 (512^3) fun i hi hp => ?_).1
  refine ⟨nodup_pages slot_mod (hs i hi hp), fun p hmem => ?_⟩
  obtain ⟨hlo,hhi,-⟩ := (mem_pages slot_mod (hs i hi hp)).mp hmem
  rw [slot_eq] at hlo hhi
  exact ⟨by omega, by omega⟩

theorem userPages_lowerFrame {root : Nat} (h : page ∈ userPages ram root) :
    LowerFrame ram root (entryPpn page.2) := by
  obtain ⟨i,hi,hp,hmem⟩ := mem_entries.mp h
  exact Or.inr ⟨i, hi, hp, pages_holds hmem⟩

/-! The tables of the child while the pages of a list are copied one after the other. -/

/-- The child's page at `vpn` is a copy of the page with the entry, in a frame of its own. -/
structure Copied (ram : Ram) (child : Nat) (pool : List Nat) (s : State) (page : Nat × Nat)
    (frame : Nat) : Prop where
  walk : walk s.1 3 child page.1 = some ⟨frame, write page.2, true⟩
  fresh : frame ∈ pool
  taken : frame ∉ s.2
  outside : ¬InNode s.1 256 2 child frame
  content : ∀ i < 512, s.1 frame i = ram (entryPpn page.2) i

/-- The pages of `done` are in the child, and nothing else. `ram` is the memory and `pool`
the stock of frames before. -/
structure Cloned (ram : Ram) (child : Nat) (pool : List Nat) (done : List (Nat × Nat))
    (s : State) : Prop where
  wellNode : WellNode s.1 256 2 child
  plain : OpenNode s.1 256 2 child
  stock : Stock (InNode s.1 256 2 child) s.2
  left : ∀ f ∈ s.2, f ∈ pool
  same : ∀ f, f ≠ child → f ∉ pool → s.1 f = ram f
  tables : ∀ f, InNode s.1 256 2 child f → f = child ∨ f ∈ pool
  low : ∀ page ∈ done, page.1 < 2^35
  copied : ∀ page ∈ done, ∃ frame, Copied ram child pool s page frame
  rest : ∀ vpn < 2^35, vpn ∉ done.map Prod.fst → walk s.1 3 child vpn = none
  apart : ∀ vpn < 2^35, ∀ vpn' < 2^35, vpn ≠ vpn' → ∀ leaf leaf',
    walk s.1 3 child vpn = some leaf → walk s.1 3 child vpn' = some leaf' →
      leaf.frame ≠ leaf'.frame

/-- Frames that neither the child nor `alloc` has. -/
def Away (child : Nat) (pool : List Nat) (f : Nat) : Prop := f ≠ child ∧ f ∉ pool

/-- Pages that a fork can go on with after those of `done`, all of them as `ok` says. -/
structure Ready (ok : Nat × Nat → Prop) (done next : List (Nat × Nat)) : Prop where
  nodup : ((done ++ next).map Prod.fst).Nodup
  ok : ∀ page ∈ next, ok page

/-- A page of the lower half whose frame stays as it is. -/
def Source (child : Nat) (pool : List Nat) (page : Nat × Nat) : Prop :=
  page.1 < 2^35 ∧ Away child pool (entryPpn page.2)

variable {child : Nat} {pool : List Nat} {done next : List (Nat × Nat)} {s s' : State}
  {ok : Nat × Nat → Prop} {away : Nat → Prop} {good : List (Nat × Nat) → State → Prop}

theorem Cloned.mapped (h : Cloned ram child pool done s) {leaf : Leaf} (hv : vpn < 2^35)
    (hw : walk s.1 3 child vpn = some leaf) :
    ∃ page ∈ done, page.1 = vpn ∧ Copied ram child pool s page leaf.frame := by
  by_cases hmem : vpn ∈ done.map Prod.fst
  · obtain ⟨page,hp,rfl⟩ := List.mem_map.mp hmem
    obtain ⟨frame,hc⟩ := h.copied page hp
    obtain rfl : leaf = ⟨frame, write page.2, true⟩ := Option.some.inj (hw.symm.trans hc.walk)
    exact ⟨page, hp, rfl, hc⟩
  · rw [h.rest vpn hv hmem] at hw
    cases hw

/-- One page more in the child: the frame `dst` for it, and those of `taken` for tables. -/
structure Added (s s' : State) (child : Nat) (page : Nat × Nat) (dst : Nat) (taken : List Nat) :
    Prop where
  wellNode : WellNode s'.1 256 2 child
  plain : OpenNode s'.1 256 2 child
  stock : s.2 = dst :: (taken ++ s'.2)
  same : ∀ f, ¬InNode s.1 256 2 child f → f ≠ dst → f ∉ taken → s'.1 f = s.1 f
  tables : ∀ f, InNode s'.1 256 2 child f → InNode s.1 256 2 child f ∨ f ∈ taken
  walk : walk s'.1 3 child page.1 = some ⟨dst, write page.2, true⟩
  others : ∀ vpn < 2^35, vpn ≠ page.1 →
    PageTables.walk s'.1 3 child vpn = PageTables.walk s.1 3 child vpn
  content : ∀ i < 512, s'.1 dst i = s.1 (entryPpn page.2) i

theorem clonePage_added (hw : WellNode s.1 256 2 child) (ho : OpenNode s.1 256 2 child)
    (hst : Stock (InNode s.1 256 2 child) s.2) (hv : page.1 < 2^35)
    (hsrc : entryPpn page.2 ∉ s.2) (hs : clonePage child s page = some s') :
    ∃ dst taken, Added s s' child page dst taken := by
  obtain ⟨ram₀,stock⟩ := s
  obtain ⟨ram',pool'⟩ := s'
  cases stock with
  | nil => cases hs
  | cons dst stock =>
    have hmap : map (copyFrame (zeroFrame ram₀ dst) dst (entryPpn page.2)) stock child 3 page.1 dst
        true (write page.2) = some (ram', pool') := hs
    generalize hram : copyFrame (zeroFrame ram₀ dst) dst (entryPpn page.2) = ram₁ at hmap
    have hsrc' : entryPpn page.2 ≠ dst := fun h => hsrc (h ▸ List.mem_cons_self)
    have hother (f : Nat) (hf : f ≠ dst) : ram₁ f = ram₀ f := by
      rw [← hram, copyFrame, update_of_ne hf, zeroFrame, update_of_ne hf]
    have hcopy (i : Nat) (hi : i < 512) : ram₁ dst i = ram₀ (entryPpn page.2) i := by
      rw [← hram, copyFrame, update_self, if_pos hi, zeroFrame, update_of_ne hsrc']
    obtain ⟨taken,rfl,hm,hdst⟩ := map_stored hw hst (index_low hv) hother hmap
    obtain ⟨hopen,hwalk⟩ := hm.plain ho
    refine ⟨dst, taken, hm.wellNode, hopen, rfl, hm.same, hm.tables, hwalk, fun vpn hvpn hne => ?_,
      fun i hi => (congrFun hdst i).trans (hcopy i hi)⟩
    have hv' : page.1 % 512^4 = page.1 := Nat.mod_eq_of_lt (by omega)
    have hvpn' : vpn % 512^4 = vpn := Nat.mod_eq_of_lt (by omega)
    exact hm.others vpn (index_low hvpn) (by rw [hv', hvpn']; exact hne)

theorem Cloned.step (h : Cloned ram child pool done s) (hr : Ready (Source child pool) done [page])
    (hs : clonePage child s page = some s') : Cloned ram child pool (done ++ [page]) s' := by
  obtain ⟨hlow,hsrc⟩ := hr.ok page List.mem_cons_self
  obtain ⟨dst,taken,ha⟩ := clonePage_added h.wellNode h.plain h.stock hlow
    (fun hm => hsrc.2 (h.left _ hm)) hs
  have hnew : page.1 ∉ done.map Prod.fst := by
    have hnodup := hr.nodup
    rw [List.map_append, List.nodup_append] at hnodup
    exact fun hm => hnodup.2.2 _ hm _ List.mem_cons_self rfl
  have hnone : walk s.1 3 child page.1 = none := h.rest _ hlow hnew
  have hstock := h.stock.nodup
  rw [ha.stock, List.nodup_cons, List.mem_append, not_or, List.nodup_append] at hstock
  obtain ⟨⟨hdt,hds⟩,-,hleft,hapart⟩ := hstock
  have hmem (f : Nat) (hf : f = dst ∨ f ∈ taken ∨ f ∈ s'.2) : f ∈ s.2 := by
    rw [ha.stock, List.mem_cons, List.mem_append]
    exact hf
  have hkeep (f : Nat) (hf : f ∉ s.2) (hn : ¬InNode s.1 256 2 child f) :
      s'.1 f = s.1 f ∧ ¬InNode s'.1 256 2 child f := by
    have ht : f ∉ taken := fun ht => hf (hmem f (Or.inr (Or.inl ht)))
    exact ⟨ha.same f hn (fun hd => hf (hmem f (Or.inl hd))) ht,
      fun hin => (ha.tables f hin).elim hn ht⟩
  have hwalk (vpn : Nat) (hv : vpn < 2^35) (leaf : Leaf)
      (hw : walk s'.1 3 child vpn = some leaf) :
      vpn = page.1 ∧ leaf.frame = dst ∨
        walk s.1 3 child vpn = some leaf ∧ leaf.frame ∉ s.2 := by
    by_cases hne : vpn = page.1
    · rw [hne, ha.walk] at hw
      obtain rfl := Option.some.inj hw
      exact Or.inl ⟨hne, rfl⟩
    · rw [ha.others vpn hv hne] at hw
      obtain ⟨_,-,-,hc⟩ := h.mapped hv hw
      exact Or.inr ⟨hw, hc.taken⟩
  have hdst : dst ∈ s.2 := hmem dst (Or.inl rfl)
  refine ⟨ha.wellNode, ha.plain, ⟨hleft, fun f hf hin => ?_, fun f hf => ?_⟩, fun f hf => ?_,
    fun f hf hp => ?_, fun f hf => ?_, fun p hp => ?_, fun p hp => ?_, fun vpn hv hnot => ?_,
    fun vpn hv vpn' hv' hne leaf leaf' hw hw' => ?_⟩
  · obtain hin | hin := ha.tables f hin
    · exact h.stock.outside f (hmem f (Or.inr (Or.inr hf))) hin
    · exact hapart f hin f hf rfl
  · exact h.stock.small f (hmem f (Or.inr (Or.inr hf)))
  · exact h.left f (hmem f (Or.inr (Or.inr hf)))
  · have hn : ¬InNode s.1 256 2 child f := fun hin => (h.tables f hin).elim hf hp
    exact (hkeep f (fun hl => hp (h.left f hl)) hn).1.trans (h.same f hf hp)
  · obtain hin | hin := ha.tables f hf
    · exact h.tables f hin
    · exact Or.inr (h.left f (hmem f (Or.inr (Or.inl hin))))
  · obtain hp | hp := List.mem_append.mp hp
    · exact h.low p hp
    · exact (hr.ok p hp).1
  · obtain hp | hp := List.mem_append.mp hp
    · obtain ⟨frame,hc⟩ := h.copied p hp
      obtain ⟨hsame,hout⟩ := hkeep frame hc.taken hc.outside
      have hne : p.1 ≠ page.1 := fun heq => hnew (heq ▸ List.mem_map_of_mem hp)
      refine ⟨frame, ?_, hc.fresh, fun hl => hc.taken (hmem frame (Or.inr (Or.inr hl))), hout,
        fun i hi => ?_⟩
      · rw [ha.others p.1 (h.low p hp) hne, hc.walk]
      · rw [hsame, hc.content i hi]
    · obtain rfl := List.mem_singleton.mp hp
      refine ⟨dst, ha.walk, h.left dst hdst, hds, fun hin => ?_, fun i hi => ?_⟩
      · exact (ha.tables dst hin).elim (h.stock.outside dst hdst) hdt
      · rw [ha.content i hi, h.same _ hsrc.1 hsrc.2]
  · rw [List.map_append, List.mem_append, not_or] at hnot
    have hne : vpn ≠ page.1 := fun heq => hnot.2 (heq ▸ List.mem_cons_self)
    rw [ha.others vpn hv hne, h.rest vpn hv hnot.1]
  · obtain ⟨heq,hf⟩ | ⟨hold,hf⟩ := hwalk vpn hv leaf hw
    · obtain ⟨heq',-⟩ | ⟨-,hf'⟩ := hwalk vpn' hv' leaf' hw'
      · exact absurd (heq.trans heq'.symm) hne
      · exact fun hff => hf' (hff ▸ hf ▸ hdst)
    · obtain ⟨-,hf'⟩ | ⟨hold',-⟩ := hwalk vpn' hv' leaf' hw'
      · exact fun hff => hf (hff ▸ hf' ▸ hdst)
      · exact h.apart vpn hv vpn' hv' hne leaf leaf' hold hold'

theorem ready_append {first rest : List (Nat × Nat)} :
    Ready ok done (first ++ rest) ↔ Ready ok done first ∧ Ready ok (done ++ first) rest := by
  constructor
  · rintro ⟨hn,hok⟩
    rw [← List.append_assoc] at hn
    refine ⟨⟨?_, fun p hp => hok p (List.mem_append_left _ hp)⟩, hn, fun p hp =>
      hok p (List.mem_append_right _ hp)⟩
    rw [List.map_append] at hn
    exact (List.nodup_append.mp hn).1
  · rintro ⟨⟨-,hok⟩,hn,hok'⟩
    rw [List.append_assoc] at hn
    exact ⟨hn, fun p hp => (List.mem_append.mp hp).elim (hok p) (hok' p)⟩

def clonePages (child : Nat) (next : List (Nat × Nat)) (s : State) : Option State :=
  next.foldlM (clonePage child) s

/-- An invariant of the copies, under which the frames `away` stay as they are in `ram`. -/
structure Cloning (ram : Ram) (child : Nat) (away : Nat → Prop) (ok : Nat × Nat → Prop)
    (good : List (Nat × Nat) → State → Prop) : Prop where
  same : ∀ done s, good done s → ∀ f, away f → s.1 f = ram f
  step : ∀ done s page s', good done s → Ready ok done [page] →
    clonePage child s page = some s' → good (done ++ [page]) s'

theorem Cloned.cloning : Cloning ram child (Away child pool) (Source child pool)
    (Cloned ram child pool) :=
  ⟨fun _ _ h f hf => h.same f hf.1 hf.2, fun _ _ _ _ h hr hs => h.step hr hs⟩

theorem Cloning.run (hc : Cloning ram child away ok good) (h : good done s)
    (hr : Ready ok done next) (hs : clonePages child next s = some s') :
    good (done ++ next) s' := by
  induction next generalizing done s with
  | nil =>
    obtain rfl : s = s' := Option.some.inj hs
    rw [List.append_nil]
    exact h
  | cons page next ih =>
    rw [clonePages, List.foldlM_cons] at hs
    obtain ⟨s₁,hs₁,hs⟩ := Option.bind_eq_some_iff.mp hs
    obtain ⟨hfirst,hrest⟩ := ready_append.mp (show Ready ok done ([page] ++ next) from hr)
    have hrun := ih (hc.step _ _ _ _ h hfirst hs₁) hrest hs
    rwa [List.append_assoc] at hrun

theorem clonePages_isSome (h : 4*next.length ≤ s.2.length) :
    ∃ s', clonePages child next s = some s' := by
  induction next generalizing s with
  | nil => exact ⟨s, rfl⟩
  | cons page next ih =>
    obtain ⟨ram,stock⟩ := s
    rw [List.length_cons] at h
    cases stock with
    | nil => exact absurd h (by simp)
    | cons dst stock =>
      have hlen : 3 ≤ stock.length := by
        rw [List.length_cons] at h
        omega
      obtain ⟨ram',stock',hm,hleft⟩ := map_isSome (copyFrame (zeroFrame ram dst) dst
        (entryPpn page.2)) child page.1 dst true (write page.2) hlen
      obtain ⟨s',hs⟩ := ih (s := (ram', stock')) (by
        rw [List.length_cons] at h
        change _ ≤ stock'.length
        omega)
      refine ⟨s', ?_⟩
      rw [clonePages, List.foldlM_cons]
      exact Option.bind_eq_some_iff.mpr ⟨_, hm, hs⟩

/-! The recursion of the source copies the pages of the list. -/

theorem clonePages_append {first rest : List (Nat × Nat)} :
    clonePages child (first ++ rest) s = (clonePages child first s).bind (clonePages child rest) :=
  List.foldlM_append

/-- A visit that copies the pages found in an entry, at each entry of a table that stays. -/
theorem Cloning.eachEntry_eq {visit : Nat → Nat → State → Option State}
    (hc : Cloning ram child away ok good) (h : good done s) (ht : away table)
    (hr : Ready ok done (entries ram n table found))
    (hvisit : ∀ i < n, present (ram table i) = true → ∀ done s, good done s →
      Ready ok done (found i (ram table i)) →
        visit i (ram table i) s = clonePages child (found i (ram table i)) s) :
    eachEntry n table visit s = clonePages child (entries ram n table found) s := by
  induction n with
  | zero => rfl
  | succ n ih =>
    rw [entries_succ] at hr ⊢
    obtain ⟨hfirst,hlast⟩ := ready_append.mp hr
    have hn := ih hfirst fun i hi => hvisit i (by omega)
    rw [clonePages_append, ← hn, eachEntry, List.range_succ, List.foldlM_append]
    refine Option.bind_congr fun s₁ hs₁ => ?_
    have hg : good (done ++ entries ram n table found) s₁ := hc.run h hfirst (hn ▸ hs₁)
    simp only [List.foldlM_cons, List.foldlM_nil, hc.same _ _ hg table ht, bind_pure]
    by_cases hp : present (ram table n) = true
    · rw [if_pos hp] at hlast ⊢
      rw [if_pos hp]
      exact hvisit n (Nat.lt_succ_self n) hp _ s₁ hg hlast
    · rw [if_neg hp, if_neg hp]
      rfl

theorem Cloning.cloneUserPages_eq (hc : Cloning ram child away ok good) (h : good done s)
    (hs : Small ram level table) (ha : ∀ f, Holds ram (level+1) table f → away f)
    (hr : Ready ok done (pages ram level table base)) :
    cloneUserPages child level table base s = clonePages child (pages ram level table base) s := by
  induction level generalizing table base done s with
  | zero =>
    refine hc.eachEntry_eq h (ha table (Or.inl rfl)) hr fun i _ _ done s _ _ => ?_
    split
    · rw [clonePages, List.foldlM_cons]
      exact (bind_pure _).symm
    · rfl
  | succ level ih =>
    refine hc.eachEntry_eq h (ha table (Or.inl rfl)) hr fun i hi hp done s hg hr => ?_
    obtain ⟨hh,hchild⟩ := hs i hi hp
    rw [if_neg (by simp [hh])]
    exact ih hg hchild (fun f hf => ha f (Or.inr ⟨i, hi, hp, hf⟩)) hr

theorem Cloning.forkFrom_eq {parent : Nat} (hc : Cloning ram child away ok good)
    (h : good done s) (hs : SmallPages ram parent) (ha : ∀ f, LowerFrame ram parent f → away f)
    (hr : Ready ok done (userPages ram parent)) :
    forkFrom parent child s = clonePages child (userPages ram parent) s := by
  refine hc.eachEntry_eq h (ha parent (Or.inl rfl)) hr fun i hi hp done s hg hr => ?_
  exact hc.cloneUserPages_eq hg (hs i hi hp) (fun f hf => ha f (Or.inr ⟨i, hi, hp, hf⟩)) hr

theorem cloned_nil (hempty : ∀ i < 256, present (ram child i) = false) (hnodup : pool.Nodup)
    (hsmall : ∀ f ∈ pool, f < 2^36) (hchild : child ∉ pool) :
    Cloned ram child pool [] (ram, pool) := by
  have hnode (f : Nat) (hf : InNode ram 256 2 child f) : f = child := by
    obtain hf | ⟨i,hi,ht,-⟩ := hf
    · exact hf
    · exact absurd ht.1 (by simp [hempty i hi])
  have hnone (vpn : Nat) (hv : vpn < 2^35) : walk ram 3 child vpn = none := by
    simp [walk, hempty _ (index_low hv)]
  refine ⟨fun i hi => ⟨fun hp => ?_, fun ht => ?_⟩, fun i hi hp => ?_,
    ⟨hnodup, fun f hf hin => hchild (hnode f hin ▸ hf), hsmall⟩, fun f hf => hf,
    fun _ _ _ => rfl, fun f hf => Or.inl (hnode f hf), by simp, by simp,
    fun vpn hv _ => hnone vpn hv, fun vpn hv _ _ _ _ _ hw => ?_⟩
  · exact absurd hp (by simp [hempty i hi])
  · exact absurd ht.1 (by simp [hempty i hi])
  · exact absurd hp (by simp [hempty i hi])
  · rw [hnone vpn hv] at hw
    cases hw

/-- What a fork gives the child, and what it leaves to the parent. -/
structure Forked (ram ram' : Ram) (parent child : Nat) : Prop where
  mapped : ∀ vpn < 2^35, (walk ram' 3 child vpn).isSome ↔ (userEntry ram 3 parent vpn).isSome
  copied : ∀ vpn < 2^35, ∀ entry, userEntry ram 3 parent vpn = some entry →
    ∃ frame, walk ram' 3 child vpn = some ⟨frame, write entry, true⟩ ∧
      ¬LowerFrame ram parent frame ∧ ∀ i < 512, ram' frame i = ram (entryPpn entry) i
  apart : ∀ vpn < 2^35, ∀ vpn' < 2^35, vpn ≠ vpn' → ∀ leaf leaf',
    walk ram' 3 child vpn = some leaf → walk ram' 3 child vpn' = some leaf' →
      leaf.frame ≠ leaf'.frame
  parent : ∀ f, LowerFrame ram parent f → ram' f = ram f

theorem Cloned.forked {parent : Nat} (hs : SmallPages ram parent)
    (hfree : ∀ f, LowerFrame ram parent f → Away child pool f)
    (h : Cloned ram child pool (userPages ram parent) s) : Forked ram s.1 parent child := by
  refine ⟨fun vpn hv => ⟨fun hw => ?_, fun he => ?_⟩, fun vpn hv entry he => ?_, h.apart,
    fun f hf => h.same f (hfree f hf).1 (hfree f hf).2⟩
  · obtain ⟨leaf,hw⟩ := Option.isSome_iff_exists.mp hw
    obtain ⟨page,hmem,rfl,-⟩ := h.mapped hv hw
    obtain ⟨-,he⟩ := (mem_userPages hs).mp hmem
    exact Option.isSome_iff_exists.mpr ⟨_, he⟩
  · obtain ⟨entry,he⟩ := Option.isSome_iff_exists.mp he
    obtain ⟨frame,hp⟩ := h.copied _ ((mem_userPages hs).mpr ⟨hv, he⟩)
    exact Option.isSome_iff_exists.mpr ⟨_, hp.walk⟩
  · obtain ⟨frame,hp⟩ := h.copied _ ((mem_userPages hs).mpr ⟨hv, he⟩)
    exact ⟨frame, hp.walk, fun hl => (hfree frame hl).2 hp.fresh, hp.content⟩

/-- `fork_from` comes to its end when `alloc` has four frames for a page. Then the child has
a page exactly where the parent has a user page: a copy with the same write permission, in a
frame that neither the parent nor another page has. The parent stays as it was. -/
theorem fork_copies (ram : Ram) (parent child : Nat) (pool : List Nat)
    (hs : SmallPages ram parent) (hempty : ∀ i < 256, present (ram child i) = false)
    (hnodup : pool.Nodup) (hsmall : ∀ f ∈ pool, f < 2^36) (hchild : child ∉ pool)
    (hfree : ∀ f, LowerFrame ram parent f → f ≠ child ∧ f ∉ pool) :
    (4*(userPages ram parent).length ≤ pool.length →
      ∃ s, forkFrom parent child (ram, pool) = some s) ∧
    ∀ s, forkFrom parent child (ram, pool) = some s → Forked ram s.1 parent child := by
  have hnil := cloned_nil hempty hnodup hsmall hchild
  have hready : Ready (Source child pool) [] (userPages ram parent) := by
    refine ⟨?_, fun p hp => ⟨((mem_userPages hs).mp hp).1, hfree _ (userPages_lowerFrame hp)⟩⟩
    rw [List.nil_append]
    exact nodup_userPages hs
  rw [Cloned.cloning.forkFrom_eq hnil hs hfree hready]
  refine ⟨fun hlen => clonePages_isSome hlen, fun s hrun => ?_⟩
  have hall := Cloned.cloning.run hnil hready hrun
  rw [List.nil_append] at hall
  exact hall.forked hs hfree

/-- Two user pages, one of them read-only, and a page of the kernel's. -/
def threePages : Ram := fun f i =>
  if f = 1 ∧ i = 0 then makeEntry 2 true true
  else if f = 2 ∧ i = 0 then makeEntry 3 true true
  else if f = 3 ∧ i = 0 then makeEntry 4 true true
  else if f = 4 ∧ i = 5 then makeEntry 9 true true
  else if f = 4 ∧ i = 6 then makeEntry 10 true false
  else if f = 4 ∧ i = 7 then makeEntry 11 false true
  else if f = 10 then 77 else 0

theorem threePages_present {f i : Nat} (hf : f < 9) (hp : present (threePages f i) = true) :
    f < 4 ∧ i = 0 ∨ f = 4 ∧ 5 ≤ i ∧ i ≤ 7 := by
  by_contra hnot
  have hzero : threePages f i = 0 := by
    simp only [threePages]
    repeat rw [if_neg (by omega)]
  rw [hzero, present_zero] at hp
  cases hp

theorem threePages_table {table i : Nat} (ht : table < 4)
    (hp : present (threePages table i) = true) : i = 0 := by
  have hcases := threePages_present (by omega) hp
  omega

theorem threePages_small : SmallPages threePages 1 := by
  intro i _ hp
  obtain rfl := threePages_table (by decide) hp
  have hchild : entryPpn (threePages 1 0) = 2 := by decide
  rw [hchild]
  intro i _ hp
  obtain rfl := threePages_table (by decide) hp
  have hchild : entryPpn (threePages 2 0) = 3 := by decide
  rw [hchild]
  refine ⟨by decide, fun i _ hp => ?_⟩
  obtain rfl := threePages_table (by decide) hp
  exact ⟨by decide, trivial⟩

theorem threePages_frames {f : Nat} (h : LowerFrame threePages 1 f) : f < 12 := by
  have htable {table level : Nat} (ht : table < 4) (hnext : entryPpn (threePages table 0) = table+1)
      (hf : Holds threePages (level+1) table f) : f = table ∨ Holds threePages level (table+1) f := by
    obtain hf | ⟨i,-,hp,hf⟩ := hf
    · exact Or.inl hf
    · obtain rfl := threePages_table ht hp
      exact Or.inr (hnext ▸ hf)
  obtain rfl | ⟨i,-,hp,hf⟩ := h
  · decide
  obtain rfl := threePages_table (by decide) hp
  have hchild : entryPpn (threePages 1 0) = 2 := by decide
  rw [hchild] at hf
  obtain rfl | hf := htable (by decide) (by decide) hf
  · decide
  obtain rfl | hf := htable (by decide) (by decide) hf
  · decide
  obtain rfl | ⟨i,-,hp,rfl⟩ := hf
  · decide
  have hi : i = 5 ∨ i = 6 ∨ i = 7 := by
    have hcases := threePages_present (by decide) hp
    omega
  obtain rfl | rfl | rfl := hi <;> decide

theorem fork_copies_threePages : ∃ s,
    forkFrom 1 20 (threePages, [30, 31, 32, 33, 34, 35, 36, 37]) = some s ∧
      (∃ frame, walk s.1 3 20 6 = some ⟨frame, false, true⟩ ∧ s.1 frame 0 = 77) ∧
      walk s.1 3 20 7 = none := by
  obtain ⟨hsome,hall⟩ := fork_copies threePages 1 20 [30, 31, 32, 33, 34, 35, 36, 37]
    threePages_small (fun i _ => by simp [threePages]) (by decide) (by decide) (by decide)
    fun f hf => by
      have hlt := threePages_frames hf
      refine ⟨by omega, fun hm => ?_⟩
      have hge : ∀ g ∈ [30, 31, 32, 33, 34, 35, 36, 37], 30 ≤ g := by decide
      have := hge f hm
      omega
  obtain ⟨s,hs⟩ := hsome (by decide +kernel)
  have hf := hall s hs
  obtain ⟨frame,hwalk,-,hsame⟩ := hf.copied 6 (by decide) (makeEntry 10 true false)
    (by decide +kernel)
  refine ⟨s, hs, ⟨frame, hwalk, (hsame 0 (by decide)).trans (by decide)⟩, ?_⟩
  have hnone : (walk s.1 3 20 7).isSome = false := by
    rw [Bool.eq_false_iff, ne_eq, hf.mapped 7 (by decide)]
    decide +kernel
  exact Option.isNone_iff_eq_none.mp (by simpa using hnone)

end NetKernel.Fork
