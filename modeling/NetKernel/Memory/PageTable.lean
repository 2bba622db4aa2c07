import NetKernel.Memory.PageEntry
import NetKernel.Memory.PhysMem

/-! Four-level page tables in frames: the walk of the processor and the kernel's, and
`map`, which splits large entries and adds tables on its way to a leaf. -/
namespace NetKernel.PageTables
open Function
open Frames (Ram storeWord zeroFrame)

/-- `(entry & PTE_HUGE) && (level == 2 || level == 1)`. -/
def isLarge (level entry : Nat) : Bool := huge entry && (level == 2 || level == 1)

/-- `physMem.alloc`, for the frames it is going to return; `none` is the panic. -/
def alloc (ram : Ram) : List Nat → Option (Nat × Ram × List Nat)
  | [] => none
  | frame :: pool => some (frame, zeroFrame ram frame, pool)

def splitLargeEntry (ram : Ram) (pool : List Nat) (table index level : Nat) :
    Option (Ram × List Nat) :=
  let entry := ram table index
  match alloc ram pool with
  | none => none
  | some (child, ram, pool) =>
    let ram := update ram child fun i =>
      if i < 512 then splitEntry entry level i else ram child i
    some (storeWord ram table index (makeEntry child (user entry) (write entry)), pool)

/-- The branch of `map` before it descends: afterwards the entry leads to a table. -/
def openEntry (ram : Ram) (pool : List Nat) (table index level : Nat) :
    Option (Ram × List Nat) :=
  if present (ram table index) then
    if isLarge level (ram table index) then splitLargeEntry ram pool table index level
    else some (ram, pool)
  else
    match alloc ram pool with
    | none => none
    | some (child, ram, pool) =>
      some (storeWord ram table index (makeEntry child true true), pool)

/-- `impl::map` from a table of a level down. -/
def map (ram : Ram) (pool : List Nat) (table : Nat) :
    Nat → Nat → Nat → Bool → Bool → Option (Ram × List Nat)
  | 0, vpn, ppn, user, write =>
    some (storeWord ram table (tableIndex vpn 0) (makeEntry ppn user write), pool)
  | level+1, vpn, ppn, user, write =>
    let index := tableIndex vpn (level+1)
    match openEntry ram pool table index (level+1) with
    | none => none
    | some (ram, pool) =>
      map ram pool (entryPpn (ram table index)) level vpn ppn user write

/-- `find_pte_in_root` from a table of a level down: the frame and the index of the leaf
entry. -/
def findPte (ram : Ram) : Nat → Nat → Nat → Option (Nat × Nat)
  | 0, table, vpn =>
    let index := tableIndex vpn 0
    if present (ram table index) then some (table, index) else none
  | level+1, table, vpn =>
    let entry := ram table (tableIndex vpn (level+1))
    if present entry = false then none
    else if isLarge (level+1) entry then none
    else findPte ram level (entryPpn entry) vpn

/-- What a page translates to, and the access that every level of the walk allows. -/
structure Leaf where
  frame : Nat
  write : Bool
  user : Bool
deriving DecidableEq, Repr

/-- The access that an entry on the way allows. -/
def Leaf.under (entry : Nat) (leaf : Leaf) : Leaf :=
  ⟨leaf.frame, PageTables.write entry && leaf.write, PageTables.user entry && leaf.user⟩

/-- The processor's walk, from a table of a level down. -/
def walk (ram : Ram) : Nat → Nat → Nat → Option Leaf
  | 0, table, vpn =>
    let entry := ram table (tableIndex vpn 0)
    if present entry then some ⟨entryAddr entry / pageSize, write entry, user entry⟩ else none
  | level+1, table, vpn =>
    let entry := ram table (tableIndex vpn (level+1))
    if present entry = false then none
    else if isLarge (level+1) entry then
      some ⟨entryAddr entry / pageSize+vpn % 512^(level+1), write entry, user entry⟩
    else (walk ram level (entryAddr entry / pageSize) vpn).map (Leaf.under entry)

/-! Trees of tables. -/

def IsTable (level entry : Nat) : Prop := present entry = true ∧ isLarge level entry = false

def InTree (ram : Ram) : Nat → Nat → Nat → Prop
  | 0, table, f => f = table
  | level+1, table, f => f = table ∨ ∃ i < 512, IsTable (level+1) (ram table i) ∧
      InTree ram level (entryPpn (ram table i)) f

/-- The same from a table of the level above, through its entries below `n`. -/
def InNode (ram : Ram) (n level table f : Nat) : Prop :=
  f = table ∨ ∃ i < n, IsTable (level+1) (ram table i) ∧
    InTree ram level (entryPpn (ram table i)) f

/-- The tables form a tree, large entries are aligned, and the kernel and the processor
read the same frame in an entry that leads to a table. -/
def WellFormed (ram : Ram) : Nat → Nat → Prop
  | 0, _ => True
  | level+1, table => ∀ i < 512,
      (present (ram table i) = true → isLarge (level+1) (ram table i) = true →
        Aligned (level+1) (ram table i)) ∧
      (IsTable (level+1) (ram table i) →
        entryAddr (ram table i) / pageSize = entryPpn (ram table i) ∧
        WellFormed ram level (entryPpn (ram table i)) ∧
        ¬InTree ram level (entryPpn (ram table i)) table ∧
        ∀ j < 512, j ≠ i → IsTable (level+1) (ram table j) →
          ∀ f, InTree ram level (entryPpn (ram table i)) f →
            ¬InTree ram level (entryPpn (ram table j)) f)

/-- The same from a table of the level above, of its entries below `n`. -/
def WellNode (ram : Ram) (n level table : Nat) : Prop := ∀ i < n,
  (present (ram table i) = true → isLarge (level+1) (ram table i) = true →
    Aligned (level+1) (ram table i)) ∧
  (IsTable (level+1) (ram table i) →
    entryAddr (ram table i) / pageSize = entryPpn (ram table i) ∧
    WellFormed ram level (entryPpn (ram table i)) ∧
    ¬InTree ram level (entryPpn (ram table i)) table ∧
    ∀ j < n, j ≠ i → IsTable (level+1) (ram table j) →
      ∀ f, InTree ram level (entryPpn (ram table i)) f →
        ¬InTree ram level (entryPpn (ram table j)) f)

/-- Tables with 4 KB pages only, and no narrowing of the access on the way to them. -/
def Open (ram : Ram) : Nat → Nat → Prop
  | 0, _ => True
  | level+1, table => ∀ i < 512, present (ram table i) = true →
      isLarge (level+1) (ram table i) = false ∧ write (ram table i) = true ∧
        user (ram table i) = true ∧ Open ram level (entryPpn (ram table i))

/-- The same from a table of the level above, of its entries below `n`. -/
def OpenNode (ram : Ram) (n level table : Nat) : Prop :=
  ∀ i < n, present (ram table i) = true →
    isLarge (level+1) (ram table i) = false ∧ write (ram table i) = true ∧
      user (ram table i) = true ∧ Open ram level (entryPpn (ram table i))

variable {ram ram' : Ram} {n level table f vpn : Nat}

theorem wellFormed_succ : WellFormed ram (level+1) table ↔ WellNode ram 512 level table := Iff.rfl

theorem InTree.self (ram : Ram) (level table : Nat) : InTree ram level table table := by
  cases level with
  | zero => rfl
  | succ level => exact Or.inl rfl

theorem InNode.child {i : Nat} (hi : i < n) (ht : IsTable (level+1) (ram table i))
    (hf : InTree ram level (entryPpn (ram table i)) f) : InNode ram n level table f :=
  Or.inr ⟨i, hi, ht, hf⟩

theorem inTree_congr (h : ∀ f, InTree ram level table f → ram' f = ram f) :
    InTree ram' level table f ↔ InTree ram level table f := by
  induction level generalizing table f with
  | zero => rfl
  | succ level ih =>
    have htable : ram' table = ram table := h table (InTree.self ..)
    simp only [InTree, htable]
    refine or_congr_right (exists_congr fun i => and_congr_right fun hi => ?_)
    exact and_congr_right fun ht => ih fun g hg => h g (InNode.child hi ht hg)

theorem walk_congr (hw : WellFormed ram level table)
    (h : ∀ f, InTree ram level table f → ram' f = ram f) :
    walk ram' level table vpn = walk ram level table vpn := by
  induction level generalizing table with
  | zero => simp only [walk, h table (InTree.self ..)]
  | succ level ih =>
    have htable : ram' table = ram table := h table (InTree.self ..)
    simp only [walk, htable]
    split
    · rfl
    split
    · rfl
    · rename_i hp hl
      have ht : IsTable (level+1) (ram table (tableIndex vpn (level+1))) :=
        ⟨by simpa using hp, by simpa using hl⟩
      obtain ⟨haddr,hchild,-⟩ := (hw _ tableIndex_lt).2 ht
      rw [haddr, ih hchild fun g hg => h g (InNode.child tableIndex_lt ht hg)]

theorem WellFormed.congr (hw : WellFormed ram level table)
    (h : ∀ f, InTree ram level table f → ram' f = ram f) : WellFormed ram' level table := by
  induction level generalizing table with
  | zero => trivial
  | succ level ih =>
    have htable : ram' table = ram table := h table (InTree.self ..)
    have hsub {i : Nat} (hi : i < 512) (ht : IsTable (level+1) (ram table i)) (g : Nat)
        (hg : InTree ram level (entryPpn (ram table i)) g) : ram' g = ram g :=
      h g (InNode.child hi ht hg)
    intro i hi
    rw [htable]
    refine ⟨(hw i hi).1, fun ht => ?_⟩
    obtain ⟨haddr,hchild,hnot,hapart⟩ := (hw i hi).2 ht
    refine ⟨haddr, ih hchild (hsub hi ht), ?_, fun j hj hji htj g hg => ?_⟩
    · rwa [inTree_congr (hsub hi ht)]
    · rw [inTree_congr (hsub hi ht)] at hg
      rw [inTree_congr (hsub hj htj)]
      exact hapart j hj hji htj g hg

theorem Open.congr (ho : Open ram level table)
    (h : ∀ f, InTree ram level table f → ram' f = ram f) : Open ram' level table := by
  induction level generalizing table with
  | zero => trivial
  | succ level ih =>
    have htable : ram' table = ram table := h table (InTree.self ..)
    intro i hi hp
    rw [htable] at hp ⊢
    obtain ⟨hl,hw,hu,hchild⟩ := ho i hi hp
    exact ⟨hl, hw, hu, ih hchild fun g hg => h g (InNode.child hi ⟨hp, hl⟩ hg)⟩

/-! The same of a node. -/

section Node
variable (h : ∀ f, InNode ram n level table f → ram' f = ram f)
include h

theorem inNode_congr : InNode ram' n level table f ↔ InNode ram n level table f := by
  have htable : ram' table = ram table := h table (Or.inl rfl)
  simp only [InNode, htable]
  refine or_congr_right (exists_congr fun i => and_congr_right fun hi => ?_)
  exact and_congr_right fun ht => inTree_congr fun g hg => h g (InNode.child hi ht hg)

theorem walk_congr_node (hw : WellNode ram n level table) (hn : tableIndex vpn (level+1) < n) :
    walk ram' (level+1) table vpn = walk ram (level+1) table vpn := by
  have htable : ram' table = ram table := h table (Or.inl rfl)
  simp only [walk, htable]
  split
  · rfl
  split
  · rfl
  · rename_i hp hl
    have ht : IsTable (level+1) (ram table (tableIndex vpn (level+1))) :=
      ⟨by simpa using hp, by simpa using hl⟩
    obtain ⟨haddr,hchild,-⟩ := (hw _ hn).2 ht
    rw [haddr, walk_congr hchild fun g hg => h g (InNode.child hn ht hg)]

theorem WellNode.congr (hw : WellNode ram n level table) : WellNode ram' n level table := by
  have htable : ram' table = ram table := h table (Or.inl rfl)
  have hsub {i : Nat} (hi : i < n) (ht : IsTable (level+1) (ram table i)) (g : Nat)
      (hg : InTree ram level (entryPpn (ram table i)) g) : ram' g = ram g :=
    h g (InNode.child hi ht hg)
  intro i hi
  rw [htable]
  refine ⟨(hw i hi).1, fun ht => ?_⟩
  obtain ⟨haddr,hchild,hnot,hapart⟩ := (hw i hi).2 ht
  refine ⟨haddr, hchild.congr (hsub hi ht), ?_, fun j hj hji htj g hg => ?_⟩
  · rwa [inTree_congr (hsub hi ht)]
  · rw [inTree_congr (hsub hi ht)] at hg
    rw [inTree_congr (hsub hj htj)]
    exact hapart j hj hji htj g hg

theorem OpenNode.congr (ho : OpenNode ram n level table) : OpenNode ram' n level table := by
  have htable : ram' table = ram table := h table (Or.inl rfl)
  intro i hi hp
  rw [htable] at hp ⊢
  obtain ⟨hl,hw,hu,hchild⟩ := ho i hi hp
  exact ⟨hl, hw, hu, hchild.congr fun g hg => h g (InNode.child hi ⟨hp, hl⟩ hg)⟩

end Node

/-! A table whose entry `k` now leads to the table `c`. -/

structure Grafted (ram ram' : Ram) (n level table k c : Nat) : Prop where
  others : ∀ i, i ≠ k → ram' table i = ram table i
  entry : IsTable (level+1) (ram' table k)
  ppn : entryPpn (ram' table k) = c
  addr : entryAddr (ram' table k) / pageSize = c
  child : WellFormed ram' level c
  acyclic : ¬InTree ram' level c table
  kept : ∀ i < n, i ≠ k → IsTable (level+1) (ram table i) →
    ∀ f, InTree ram level (entryPpn (ram table i)) f → ram' f = ram f ∧ ¬InTree ram' level c f

section Graft
variable {k c : Nat} (h : Grafted ram ram' n level table k c)
include h

theorem Grafted.inTree (hf : InNode ram' n level table f) :
    InNode ram n level table f ∨ InTree ram' level c f := by
  obtain hf | ⟨i,hi,ht,hf⟩ := hf
  · exact Or.inl (Or.inl hf)
  · by_cases hik : i = k
    · subst hik
      rw [h.ppn] at hf
      exact Or.inr hf
    · rw [h.others i hik] at ht hf
      rw [inTree_congr fun g hg => (h.kept i hi hik ht g hg).1] at hf
      exact Or.inl (InNode.child hi ht hf)

theorem Grafted.wellFormed (hw : WellNode ram n level table) :
    WellNode ram' n level table := by
  have hsame {i : Nat} (hi : i < n) (hik : i ≠ k) (ht : IsTable (level+1) (ram table i)) :
      ∀ g, InTree ram' level (entryPpn (ram table i)) g ↔
        InTree ram level (entryPpn (ram table i)) g := fun g =>
    inTree_congr fun x hx => (h.kept i hi hik ht x hx).1
  intro i hi
  by_cases hik : i = k
  · subst hik
    refine ⟨fun hp hl => absurd hl (by simp [h.entry.2]), fun _ => ?_⟩
    rw [h.ppn]
    refine ⟨h.addr, h.child, h.acyclic, fun j hj hji htj f hf hfj => ?_⟩
    rw [h.others j hji] at htj hfj
    rw [hsame hj hji htj] at hfj
    exact (h.kept j hj hji htj f hfj).2 hf
  · rw [h.others i hik]
    refine ⟨(hw i hi).1, fun ht => ?_⟩
    obtain ⟨haddr,hchild,hnot,hapart⟩ := (hw i hi).2 ht
    refine ⟨haddr, hchild.congr fun g hg => (h.kept i hi hik ht g hg).1, ?_,
      fun j hj hji htj f hf => ?_⟩
    · rwa [hsame hi hik ht]
    · rw [hsame hi hik ht] at hf
      by_cases hjk : j = k
      · subst hjk
        rw [h.ppn]
        exact (h.kept i hi hik ht f hf).2
      · rw [h.others j hjk] at htj ⊢
        rw [hsame hj hjk htj]
        exact hapart j hj hji htj f hf

theorem Grafted.openNode (ho : OpenNode ram n level table) (hc : Open ram' level c)
    (hw : write (ram' table k) = true) (hu : user (ram' table k) = true) :
    OpenNode ram' n level table := by
  intro i hi hp
  by_cases hik : i = k
  · subst hik
    exact ⟨h.entry.2, hw, hu, h.ppn ▸ hc⟩
  · rw [h.others i hik] at hp ⊢
    obtain ⟨hl,hwi,hui,hchild⟩ := ho i hi hp
    exact ⟨hl, hwi, hui, hchild.congr fun g hg => (h.kept i hi hik ⟨hp, hl⟩ g hg).1⟩

theorem Grafted.walk_self (hk : tableIndex vpn (level+1) = k) :
    walk ram' (level+1) table vpn =
      (walk ram' level c vpn).map (Leaf.under (ram' table k)) := by
  obtain ⟨hp,hl⟩ := h.entry
  simp only [walk, hk, hp, hl, h.addr]
  simp

theorem Grafted.walk_other (hw : WellNode ram n level table)
    (hn : tableIndex vpn (level+1) < n) (hk : tableIndex vpn (level+1) ≠ k) :
    walk ram' (level+1) table vpn = walk ram (level+1) table vpn := by
  simp only [walk, h.others _ hk]
  split
  · rfl
  split
  · rfl
  · rename_i hp hl
    have ht : IsTable (level+1) (ram table (tableIndex vpn (level+1))) :=
      ⟨by simpa using hp, by simpa using hl⟩
    obtain ⟨haddr,hchild,-⟩ := (hw _ hn).2 ht
    rw [haddr, walk_congr hchild fun g hg => (h.kept _ hn hk ht g hg).1]

end Graft

/-! A fresh table of leaves. -/

theorem inTree_leaves {c : Nat} (h : level ≠ 0 → ∀ i < 512, ¬IsTable level (ram c i))
    (hf : InTree ram level c f) : f = c := by
  cases level with
  | zero => exact hf
  | succ level =>
    obtain hf | ⟨i,hi,ht,-⟩ := hf
    · exact hf
    · exact absurd ht (h level.succ_ne_zero i hi)

theorem wellFormed_leaves {c : Nat} (h : level ≠ 0 → ∀ i < 512, ¬IsTable level (ram c i))
    (ha : ∀ i < 512, present (ram c i) = true → isLarge level (ram c i) = true →
      Aligned level (ram c i)) : WellFormed ram level c := by
  cases level with
  | zero => trivial
  | succ level =>
    exact fun i hi => ⟨ha i hi, fun ht => absurd ht (h level.succ_ne_zero i hi)⟩

theorem isTable_makeEntry {c : Nat} {u w : Bool} : IsTable level (makeEntry c u w) := by
  refine ⟨present_makeEntry, ?_⟩
  rw [isLarge, huge_makeEntry, Bool.false_and]

theorem grafted_fresh {k c : Nat} {u w : Bool} (hw : WellNode ram n level table)
    (hc : ¬InNode ram n level table c) (hlt : c < 2^36)
    (htable : ram' table = update (ram table) k (makeEntry c u w))
    (hother : ∀ f, f ≠ c → f ≠ table → ram' f = ram f)
    (hleaf : level ≠ 0 → ∀ i < 512, ¬IsTable level (ram' c i))
    (ha : ∀ i < 512, present (ram' c i) = true → isLarge level (ram' c i) = true →
      Aligned level (ram' c i)) : Grafted ram ram' n level table k c := by
  have hentry : ram' table k = makeEntry c u w := by rw [htable, update_self]
  refine ⟨fun i hi => ?_, ?_, ?_, ?_, wellFormed_leaves hleaf ha, fun hin => ?_,
    fun i hi hik ht f hf => ?_⟩
  · rw [htable, update_of_ne hi]
  · rw [hentry]
    exact isTable_makeEntry
  · rw [hentry, entryPpn_makeEntry hlt]
  · rw [hentry, entryAddr_makeEntry]
    simp only [pageSize]
    omega
  · have heq := inTree_leaves hleaf hin
    exact hc (Or.inl heq.symm)
  · have hne : f ≠ c := by
      rintro rfl
      exact hc (InNode.child hi ht hf)
    have hnt : f ≠ table := by
      rintro rfl
      exact ((hw i hi).2 ht).2.2.1 hf
    exact ⟨hother f hne hnt, fun hin => hne (inTree_leaves hleaf hin)⟩

theorem open_absent {c : Nat} (h : ∀ i < 512, present (ram c i) = false) :
    Open ram level c := by
  cases level with
  | zero => trivial
  | succ level => exact fun i hi hp => absurd hp (by simp [h i hi])

theorem walk_absent {c : Nat} (h : ∀ i < 512, present (ram c i) = false) :
    walk ram level c vpn = none := by
  have hp := h (tableIndex vpn level) tableIndex_lt
  cases level with
  | zero => simp [walk, hp]
  | succ level => simp [walk, hp]

theorem walk_split {c entry : Nat} (hp : present entry = true)
    (hl : isLarge (level+1) entry = true) (ha : Aligned (level+1) entry)
    (hc : ∀ i < 512, ram c i = splitEntry entry (level+1) i) :
    walk ram level c vpn = some ⟨entryAddr entry / pageSize+vpn % 512^(level+1),
      write entry, user entry⟩ := by
  have hlt : tableIndex vpn level < 512 := tableIndex_lt
  have hi := hc (tableIndex vpn level) hlt
  have hidx : tableIndex vpn level = vpn / 512^level % 512 := tableIndex_eq
  rw [isLarge, Bool.and_eq_true, Bool.or_eq_true, beq_iff_eq, beq_iff_eq] at hl
  obtain ⟨-,hlevel | hlevel⟩ := hl
  · obtain rfl : level = 1 := by omega
    have hs : (1 : Nat)+1 = 1 ∨ 1+1 = 2 := Or.inr rfl
    have hh (i : Nat) : isLarge 1 (splitEntry entry (1+1) i) = true := by
      rw [isLarge, huge_splitEntry]
      rfl
    simp only [walk, hi, present_splitEntry hs, hp, write_splitEntry hs, user_splitEntry hs,
      hh, entryAddr_splitEntry hs ha hlt, Bool.true_eq_false, if_false, if_true, Nat.zero_add]
    rw [hidx]
    simp only [pageSize]
    refine congrArg some (congrArg (Leaf.mk · _ _) ?_)
    omega
  · obtain rfl : level = 0 := by omega
    have hs : (0 : Nat)+1 = 1 ∨ 0+1 = 2 := Or.inl rfl
    simp only [walk, hi, present_splitEntry hs, hp, write_splitEntry hs, user_splitEntry hs,
      entryAddr_splitEntry hs ha hlt, if_true]
    rw [hidx]
    simp only [pageSize]
    refine congrArg some (congrArg (Leaf.mk · _ _) ?_)
    omega

/-! The descent of `map`. -/

/-- The frames that `alloc` is going to return: each once, none of them a table, and all
within what an entry can hold. -/
structure Stock (tables : Nat → Prop) (pool : List Nat) : Prop where
  nodup : pool.Nodup
  outside : ∀ f ∈ pool, ¬tables f
  small : ∀ f ∈ pool, f < 2^36

/-- The entry leads to a table afterwards, and every page translates as before. -/
structure Opened (ram ram' : Ram) (pool pool' : List Nat) (n level table k c : Nat)
    (taken : List Nat) : Prop where
  pool : pool = taken ++ pool'
  grafted : Grafted ram ram' n level table k c
  same : ∀ f, f ≠ table → f ∉ taken → ram' f = ram f
  tree : ∀ f, InTree ram' level c f → InNode ram n level table f ∨ f ∈ taken
  walk : ∀ vpn, tableIndex vpn (level+1) = k →
    (walk ram' level c vpn).map (Leaf.under (ram' table k)) = walk ram (level+1) table vpn
  plain : OpenNode ram n level table →
    Open ram' level c ∧ write (ram' table k) = true ∧ user (ram' table k) = true

theorem opened_table {k : Nat} {pool : List Nat} (hw : WellNode ram n level table)
    (hk : k < n) (ht : IsTable (level+1) (ram table k)) :
    Opened ram ram pool pool n level table k (entryPpn (ram table k)) [] := by
  obtain ⟨haddr,hchild,hnot,hapart⟩ := (hw k hk).2 ht
  refine ⟨rfl, ⟨fun _ _ => rfl, ht, rfl, haddr, hchild, hnot, fun i hi hik hti f hf =>
    ⟨rfl, fun hfk => hapart i hi hik hti f hfk hf⟩⟩, fun _ _ _ => rfl,
    fun f hf => Or.inl (InNode.child hk ht hf), fun vpn hv => ?_, fun ho => ?_⟩
  · obtain ⟨hp,hl⟩ := ht
    simp only [PageTables.walk, hv, hp, hl, haddr]
    simp
  · obtain ⟨-,hwr,hus,hopen⟩ := ho k hk ht.1
    exact ⟨hopen, hwr, hus⟩

theorem opened_fresh {k c : Nat} {u w : Bool} {pool : List Nat} {g : Nat → Nat}
    (hw : WellNode ram n level table) (hs : Stock (InNode ram n level table) (c :: pool))
    (hleaf : level ≠ 0 → ∀ i < 512, ¬IsTable level (g i))
    (ha : ∀ i < 512, present (g i) = true → isLarge level (g i) = true → Aligned level (g i))
    (hwalk : ∀ (r : Ram) vpn, r c = g → tableIndex vpn (level+1) = k →
      (walk r level c vpn).map (Leaf.under (makeEntry c u w)) = walk ram (level+1) table vpn)
    (hplain : OpenNode ram n level table → (∀ i < 512, present (g i) = false) ∧ w = true ∧ u = true) :
    Opened ram (storeWord (update ram c g) table k (makeEntry c u w)) (c :: pool) pool n level table
      k c [c] := by
  have hc := hs.outside c List.mem_cons_self
  have hne : table ≠ c := fun h => hc (Or.inl h.symm)
  have htable : storeWord (update ram c g) table k (makeEntry c u w) table =
      update (ram table) k (makeEntry c u w) := by
    rw [storeWord, update_self, update_of_ne hne]
  have hother (f : Nat) (hfc : f ≠ c) (hft : f ≠ table) :
      storeWord (update ram c g) table k (makeEntry c u w) f = ram f := by
    rw [storeWord, update_of_ne hft, update_of_ne hfc]
  have hchild : storeWord (update ram c g) table k (makeEntry c u w) c = g := by
    rw [storeWord, update_of_ne hne.symm, update_self]
  have hgraft := grafted_fresh hw hc (hs.small c List.mem_cons_self) htable hother
    (by rw [hchild]; exact hleaf) (by rw [hchild]; exact ha)
  refine ⟨rfl, hgraft, fun f hft hf => hother f (fun h => hf (by simp [h])) hft,
    fun f hf => ?_, fun vpn hv => ?_, fun ho => ?_⟩
  · have heq := inTree_leaves (by rw [hchild]; exact hleaf) hf
    exact Or.inr (by simp [heq])
  · rw [htable, update_self]
    exact hwalk _ vpn hchild hv
  · obtain ⟨hzero,rfl,rfl⟩ := hplain ho
    rw [htable, update_self, write_makeEntry, user_makeEntry]
    exact ⟨open_absent (by rw [hchild]; exact hzero), rfl, rfl⟩

theorem openEntry_opened {k : Nat} {pool pool' : List Nat}
    (hw : WellNode ram n level table) (hk : k < n)
    (hs : Stock (InNode ram n level table) pool)
    (ho : openEntry ram pool table k (level+1) = some (ram', pool')) :
    ∃ c taken, Opened ram ram' pool pool' n level table k c taken := by
  unfold openEntry at ho
  by_cases hp : present (ram table k) = true
  · rw [if_pos hp] at ho
    by_cases hl : isLarge (level+1) (ram table k) = true
    · rw [if_pos hl] at ho
      cases pool with
      | nil => cases ho
      | cons c pool =>
        cases ho
        have halign := (hw k hk).1 hp hl
        have hlevel : level+1 = 1 ∨ level+1 = 2 := by
          rw [isLarge, Bool.and_eq_true, Bool.or_eq_true, beq_iff_eq, beq_iff_eq] at hl
          exact hl.2.symm
        have hsplit (i : Nat) (hi : i < 512) (g : Nat → Nat) :
            (if i < 512 then splitEntry (ram table k) (level+1) i else g i) =
              splitEntry (ram table k) (level+1) i := if_pos hi
        refine ⟨c, [c], ?_⟩
        rw [zeroFrame, update_idem]
        refine opened_fresh hw hs (fun h0 i hi ht => ?_) (fun i hi _ h => ?_)
          (fun r vpn hr hv => ?_) fun ho => ?_
        · obtain rfl : level = 1 := by omega
          have hnot := ht.2
          rw [hsplit i hi, isLarge, huge_splitEntry] at hnot
          cases hnot
        · rw [hsplit i hi] at h ⊢
          cases level with
          | zero => simp [isLarge] at h
          | succ level =>
            obtain rfl : level = 0 := by omega
            exact aligned_splitEntry halign hi
        · rw [walk_split hp hl halign fun i hi => by rw [hr]; exact hsplit i hi _]
          simp [walk, hv, hp, hl, Leaf.under]
        · exact absurd (ho k hk hp).1 (by simp [hl])
    · rw [if_neg hl] at ho
      cases ho
      exact ⟨_, [], opened_table hw hk ⟨hp, by simpa using hl⟩⟩
  · rw [if_neg hp] at ho
    cases pool with
    | nil => cases ho
    | cons c pool =>
      cases ho
      refine ⟨c, [c], opened_fresh hw hs (fun _ i _ ht => ?_)
        (fun i _ h => ?_) (fun r vpn hr hv => ?_) fun _ => ⟨fun i _ => present_zero, rfl, rfl⟩⟩
      · exact absurd ht.1 (by simp)
      · exact absurd h (by simp)
      · rw [walk_absent (by rw [hr]; exact fun i _ => present_zero)]
        simp [walk, hv, hp]

theorem openEntry_isSome (ram : Ram) (table level k : Nat) {pool : List Nat}
    (hpool : pool ≠ []) :
    ∃ ram' pool', openEntry ram pool table k level = some (ram', pool') ∧
      pool.length ≤ pool'.length+1 := by
  obtain ⟨c,pool,rfl⟩ := List.exists_cons_of_ne_nil hpool
  unfold openEntry
  split
  · split
    · exact ⟨_, _, rfl, Nat.le_refl _⟩
    · exact ⟨_, _, rfl, Nat.le_succ _⟩
  · exact ⟨_, _, rfl, Nat.le_refl _⟩

theorem map_isSome (ram : Ram) (table vpn ppn : Nat) (u w : Bool) {pool : List Nat}
    (h : level ≤ pool.length) :
    ∃ ram' pool', map ram pool table level vpn ppn u w = some (ram', pool') ∧
      pool.length ≤ pool'.length+level := by
  induction level generalizing ram pool table with
  | zero => exact ⟨_, _, rfl, Nat.le_refl _⟩
  | succ level ih =>
    have hpool : pool ≠ [] := by
      rintro rfl
      exact absurd h (by simp)
    obtain ⟨ram₁,pool₁,ho,hlen⟩ :=
      openEntry_isSome ram table (level+1) (tableIndex vpn (level+1)) hpool
    simp only [map, ho]
    obtain ⟨ram',pool',hm,hlen'⟩ := ih ram₁
      (entryPpn (ram₁ table (tableIndex vpn (level+1)))) (show level ≤ pool₁.length by omega)
    exact ⟨ram', pool', hm, by omega⟩

section Pool
variable {pool pool' : List Nat}

theorem alloc_suffix (h : alloc ram pool = some (f, ram', pool')) : pool' <:+ pool := by
  cases pool with
  | nil => cases h
  | cons frame pool =>
    cases h
    exact List.suffix_cons ..

theorem openEntry_suffix {k : Nat}
    (h : openEntry ram pool table k level = some (ram', pool')) : pool' <:+ pool := by
  unfold openEntry splitLargeEntry at h
  dsimp only at h
  split at h
  · split at h
    · split at h
      · cases h
      · cases h
        exact alloc_suffix ‹_›
    · cases h
      exact List.suffix_refl _
  · split at h
    · cases h
    · cases h
      exact alloc_suffix ‹_›

theorem map_suffix {ppn : Nat} {u w : Bool}
    (h : map ram pool table level vpn ppn u w = some (ram', pool')) : pool' <:+ pool := by
  induction level generalizing ram pool table with
  | zero =>
    cases h
    exact List.suffix_refl _
  | succ level ih =>
    simp only [map] at h
    split at h
    · cases h
    · exact (ih h).trans (openEntry_suffix ‹_›)

end Pool

/-- The frames to be returned are those on the list of `physMem` and then those of its ranges:
`alloc` takes the first, which is in use nowhere and within what an entry can hold, and panics
when there is none. -/
theorem alloc_physMem {d : Frames.DirectMap} {m : Frames.MemoryMap} {pm : Frames.PhysMem}
    {onList allocated : List Nat} (h : Frames.Supply d m ram pm onList allocated) :
    match pm.alloc d ram with
    | none => alloc ram (onList ++ pm.rangeFrames) = none
    | some (f, ram', pm') => ∃ onList', Frames.Supply d m ram' pm' onList' (f :: allocated) ∧
      alloc ram (onList ++ pm.rangeFrames) = some (f, ram', onList' ++ pm'.rangeFrames) ∧
      f ∉ allocated ∧ f < 2^36 := by
  cases ha : pm.alloc d ram with
  | none =>
    have hnil : pm.rangeFrames ++ onList = [] := by
      by_contra hne
      have hsome := h.alloc_isSome hne
      rw [ha] at hsome
      cases hsome
    obtain ⟨hrange,hlist⟩ := List.append_eq_nil_iff.mp hnil
    rw [hrange, hlist]
    rfl
  | some r =>
    obtain ⟨f,ram',pm'⟩ := r
    obtain ⟨husable,hnot,rfl,onList',hsupply,horder⟩ := h.alloc ha
    have hlt : f < 65536 := (m.usable_lt husable).2
    refine ⟨onList', hsupply, ?_, hnot, by omega⟩
    rw [horder]
    rfl

def Leaf.of (entry : Nat) : Leaf :=
  ⟨entryAddr entry / pageSize, PageTables.write entry, PageTables.user entry⟩

/-- What `map` does from a table: `vpn` has the entry, other pages translate as before, and
only tables and the frames taken change. -/
structure Mapped (ram ram' : Ram) (level table vpn entry : Nat) (taken : List Nat) : Prop where
  wellFormed : WellFormed ram' level table
  same : ∀ f, ¬InTree ram level table f → f ∉ taken → ram' f = ram f
  tree : ∀ f, InTree ram' level table f → InTree ram level table f ∨ f ∈ taken
  leaf : ∃ f i, findPte ram' level table vpn = some (f, i) ∧ ram' f i = entry
  others : ∀ vpn', vpn' % 512^(level+1) ≠ vpn % 512^(level+1) →
    walk ram' level table vpn' = walk ram level table vpn'
  plain : Open ram level table →
    Open ram' level table ∧ walk ram' level table vpn = some (Leaf.of entry)

/-- The same from a table of the level above with the entries below `n`. -/
structure MappedNode (ram ram' : Ram) (n level table vpn entry : Nat) (taken : List Nat) :
    Prop where
  wellNode : WellNode ram' n level table
  same : ∀ f, ¬InNode ram n level table f → f ∉ taken → ram' f = ram f
  tree : ∀ f, InNode ram' n level table f → InNode ram n level table f ∨ f ∈ taken
  leaf : ∃ f i, findPte ram' (level+1) table vpn = some (f, i) ∧ ram' f i = entry
  others : ∀ vpn', tableIndex vpn' (level+1) < n →
    vpn' % 512^(level+1+1) ≠ vpn % 512^(level+1+1) →
      walk ram' (level+1) table vpn' = walk ram (level+1) table vpn'
  plain : OpenNode ram n level table →
    OpenNode ram' n level table ∧ walk ram' (level+1) table vpn = some (Leaf.of entry)
  high : ∀ i, n ≤ i → ram' table i = ram table i

theorem mapped_zero {ppn : Nat} {u w : Bool} :
    Mapped ram (storeWord ram table (tableIndex vpn 0) (makeEntry ppn u w)) 0 table vpn
      (makeEntry ppn u w) [] := by
  have hself : storeWord ram table (tableIndex vpn 0) (makeEntry ppn u w) table
      (tableIndex vpn 0) = makeEntry ppn u w := by
    rw [storeWord, update_self, update_self]
  refine ⟨trivial, fun f hf _ => update_of_ne hf _ _, fun f hf => Or.inl hf,
    ⟨table, tableIndex vpn 0, ?_, hself⟩, fun vpn' hne => ?_, fun _ => ⟨trivial, ?_⟩⟩
  · simp only [findPte, hself, present_makeEntry, if_true]
  · have hidx : tableIndex vpn' 0 ≠ tableIndex vpn 0 := by
      rw [tableIndex_eq, tableIndex_eq]
      omega
    simp only [walk, storeWord, update_self, update_of_ne hidx]
  · simp only [walk, hself, present_makeEntry, if_true, Leaf.of]

theorem mappedNode_of_child {c entry : Nat} {pool pool₁ taken taken' : List Nat} {ram₁ : Ram}
    (hw : WellNode ram n level table) (hs : Stock (InNode ram n level table) pool)
    (hn : tableIndex vpn (level+1) < n)
    (ho : Opened ram ram₁ pool pool₁ n level table (tableIndex vpn (level+1)) c taken)
    (hsub : ∀ f ∈ taken', f ∈ pool₁) (hm : Mapped ram₁ ram' level c vpn entry taken') :
    MappedNode ram ram' n level table vpn entry (taken ++ taken') := by
  have hpool (f : Nat) (hf : f ∈ taken ∨ f ∈ taken') : ¬InNode ram n level table f := by
    refine hs.outside f ?_
    rw [ho.pool, List.mem_append]
    exact hf.imp_right (hsub f)
  have hnot : table ∉ taken' := fun hf => hpool table (Or.inr hf) (Or.inl rfl)
  have htable : ram' table = ram₁ table := hm.same table ho.grafted.acyclic hnot
  have hgraft : Grafted ram ram' n level table (tableIndex vpn (level+1)) c := by
    refine ⟨fun i hi => ?_, ?_, ?_, ?_, hm.wellFormed, fun hin => ?_, fun i hi hik ht f hf => ?_⟩
    · rw [htable, ho.grafted.others i hi]
    · rw [htable]
      exact ho.grafted.entry
    · rw [htable, ho.grafted.ppn]
    · rw [htable, ho.grafted.addr]
    · exact (hm.tree table hin).elim ho.grafted.acyclic hnot
    · obtain ⟨hsame,hout⟩ := ho.grafted.kept i hi hik ht f hf
      have htaken : f ∉ taken' := fun hft => hpool f (Or.inr hft) (InNode.child hi ht hf)
      exact ⟨(hm.same f hout htaken).trans hsame, fun hin => (hm.tree f hin).elim hout htaken⟩
  refine ⟨hgraft.wellFormed hw, fun f hf hft => ?_, fun f hf => ?_, ?_, fun vpn' hn' hne => ?_,
    fun hopen => ?_, fun i hi => hgraft.others i (by omega)⟩
  · rw [List.mem_append, not_or] at hft
    have hne : f ≠ table := fun h => hf (Or.inl h)
    rw [hm.same f (fun hin => (ho.tree f hin).elim hf hft.1) hft.2, ho.same f hne hft.1]
  · rw [List.mem_append]
    obtain hin | hin := hgraft.inTree hf
    · exact Or.inl hin
    · obtain hin | hin := hm.tree f hin
      · exact (ho.tree f hin).imp_right Or.inl
      · exact Or.inr (Or.inr hin)
  · obtain ⟨hp,hl⟩ := hgraft.entry
    simp only [findPte, hp, hl, hgraft.ppn]
    simpa using hm.leaf
  · by_cases hk : tableIndex vpn' (level+1) = tableIndex vpn (level+1)
    · have hlow : vpn' % 512^(level+1) ≠ vpn % 512^(level+1) := by
        intro heq
        rw [tableIndex_eq, tableIndex_eq] at hk
        rw [Nat.pow_succ 512 (level+1), Nat.mod_mul, Nat.mod_mul, hk, heq] at hne
        exact hne rfl
      rw [hgraft.walk_self hk, hm.others vpn' hlow, htable]
      exact ho.walk vpn' hk
    · exact hgraft.walk_other hw hn' hk
  · obtain ⟨hchild,hwr,hus⟩ := ho.plain hopen
    obtain ⟨hchild,hwalk⟩ := hm.plain hchild
    refine ⟨hgraft.openNode hopen hchild (htable ▸ hwr) (htable ▸ hus), ?_⟩
    rw [hgraft.walk_self rfl, hwalk, htable]
    simp [Leaf.under, Leaf.of, hwr, hus]

theorem Mapped.of_node {entry : Nat} {taken : List Nat}
    (h : MappedNode ram ram' 512 level table vpn entry taken) :
    Mapped ram ram' (level+1) table vpn entry taken :=
  ⟨h.wellNode, h.same, h.tree, h.leaf, fun vpn' => h.others vpn' tableIndex_lt, h.plain⟩

theorem stock_opened {k c : Nat} {pool pool' taken : List Nat}
    (hs : Stock (InNode ram n level table) pool)
    (ho : Opened ram ram' pool pool' n level table k c taken) :
    Stock (InTree ram' level c) pool' := by
  have hnodup := hs.nodup
  rw [ho.pool] at hnodup
  refine ⟨(List.nodup_append.mp hnodup).2.1, fun f hf hin => ?_, fun f hf => ?_⟩
  · obtain hin | hin := ho.tree f hin
    · exact hs.outside f (ho.pool ▸ List.mem_append_right _ hf) hin
    · exact (List.nodup_append.mp hnodup).2.2 f hin f hf rfl
  · exact hs.small f (ho.pool ▸ List.mem_append_right _ hf)

theorem map_node {ppn : Nat} {u w : Bool} {pool pool' : List Nat}
    (ih : ∀ {ram : Ram} {table : Nat} {pool : List Nat}, WellFormed ram level table →
      Stock (InTree ram level table) pool →
      map ram pool table level vpn ppn u w = some (ram', pool') →
      ∃ taken, pool = taken ++ pool' ∧
        Mapped ram ram' level table vpn (makeEntry ppn u w) taken)
    (hw : WellNode ram n level table) (hs : Stock (InNode ram n level table) pool)
    (hn : tableIndex vpn (level+1) < n)
    (hm : map ram pool table (level+1) vpn ppn u w = some (ram', pool')) :
    ∃ taken, pool = taken ++ pool' ∧
      MappedNode ram ram' n level table vpn (makeEntry ppn u w) taken := by
  simp only [map] at hm
  split at hm
  · cases hm
  · rename_i ram₁ pool₁ ho
    obtain ⟨c,taken,hop⟩ := openEntry_opened hw hn hs ho
    rw [hop.grafted.ppn] at hm
    obtain ⟨taken',hpool,hmapped⟩ := ih hop.grafted.child (stock_opened hs hop) hm
    refine ⟨taken ++ taken', ?_, mappedNode_of_child hw hs hn hop (fun f hf => ?_) hmapped⟩
    · rw [hop.pool, hpool, List.append_assoc]
    · rw [hpool]
      exact List.mem_append_left _ hf

theorem map_mapped {ppn : Nat} {u w : Bool} {pool pool' : List Nat}
    (hw : WellFormed ram level table) (hs : Stock (InTree ram level table) pool)
    (hm : map ram pool table level vpn ppn u w = some (ram', pool')) :
    ∃ taken, pool = taken ++ pool' ∧
      Mapped ram ram' level table vpn (makeEntry ppn u w) taken := by
  induction level generalizing ram pool table with
  | zero =>
    cases hm
    exact ⟨[], rfl, mapped_zero⟩
  | succ level ih =>
    obtain ⟨taken,hpool,hmapped⟩ := map_node ih hw hs tableIndex_lt hm
    exact ⟨taken, hpool, .of_node hmapped⟩

/-- A frame of the stock is written to and mapped at `vpn`, with `taken` for tables. -/
structure Stored (ram ram' : Ram) (n level table vpn dst : Nat) (user write : Bool)
    (taken : List Nat) : Prop where
  wellNode : WellNode ram' n level table
  same : ∀ f, ¬InNode ram n level table f → f ≠ dst → f ∉ taken → ram' f = ram f
  tables : ∀ f, InNode ram' n level table f → InNode ram n level table f ∨ f ∈ taken
  others : ∀ vpn', tableIndex vpn' (level+1) < n →
    vpn' % 512^(level+1+1) ≠ vpn % 512^(level+1+1) →
      walk ram' (level+1) table vpn' = walk ram (level+1) table vpn'
  plain : OpenNode ram n level table →
    OpenNode ram' n level table ∧ walk ram' (level+1) table vpn = some ⟨dst, write, user⟩
  high : ∀ i, n ≤ i → ram' table i = ram table i

theorem map_stored {dst : Nat} {user write : Bool} {ram₁ : Ram} {pool pool' : List Nat}
    (hw : WellNode ram n level table) (hst : Stock (InNode ram n level table) (dst :: pool))
    (hn : tableIndex vpn (level+1) < n) (hsame : ∀ f, f ≠ dst → ram₁ f = ram f)
    (hm : map ram₁ pool table (level+1) vpn dst user write = some (ram', pool')) :
    ∃ taken, pool = taken ++ pool' ∧ Stored ram ram' n level table vpn dst user write taken ∧
      ram' dst = ram₁ dst := by
  have hout := hst.outside dst List.mem_cons_self
  have hin (f : Nat) (hf : InNode ram n level table f) : ram₁ f = ram f :=
    hsame f fun h => hout (h ▸ hf)
  have hnode (f : Nat) := inNode_congr hin (f := f)
  obtain ⟨hnot,hnodup⟩ := List.nodup_cons.mp hst.nodup
  have hst₁ : Stock (InNode ram₁ n level table) pool :=
    ⟨hnodup, fun f hf hn => hst.outside f (List.mem_cons_of_mem _ hf) ((hnode f).mp hn),
      fun f hf => hst.small f (List.mem_cons_of_mem _ hf)⟩
  obtain ⟨taken,rfl,hmap⟩ := map_node map_mapped (hw.congr hin) hst₁ hn hm
  refine ⟨taken, rfl, ⟨hmap.wellNode, fun f hf hd ht => ?_, fun f hf => ?_, fun v hv hne => ?_,
    fun ho => ?_, fun i hi => ?_⟩, ?_⟩
  · exact (hmap.same f (fun h => hf ((hnode f).mp h)) ht).trans (hsame f hd)
  · exact (hmap.tree f hf).imp_left (hnode f).mp
  · exact (hmap.others v hv hne).trans (walk_congr_node hin hw hv)
  · obtain ⟨hopen,hwalk⟩ := hmap.plain (ho.congr hin)
    have hsmall : dst < 2^36 := hst.small dst List.mem_cons_self
    have hframe : entryAddr (makeEntry dst user write) / pageSize = dst := by
      rw [entryAddr_makeEntry]
      simp only [pageSize]
      omega
    rw [Leaf.of, hframe, write_makeEntry, user_makeEntry] at hwalk
    exact ⟨hopen, hwalk⟩
  · exact (hmap.high i hi).trans (congrFun (hin table (Or.inl rfl)) i)
  · refine hmap.same dst (fun h => hout ((hnode dst).mp h)) fun h => hnot ?_
    exact List.mem_append_left _ h

theorem walk_findPte {i : Nat} (hw : WellFormed ram level table)
    (hf : findPte ram level table vpn = some (f, i)) :
    present (ram f i) = true ∧
      ∃ leaf, walk ram level table vpn = some leaf ∧
        leaf.frame = entryAddr (ram f i) / pageSize := by
  induction level generalizing table with
  | zero =>
    simp only [findPte] at hf
    split at hf
    · rename_i hp
      cases hf
      exact ⟨hp, _, if_pos hp, rfl⟩
    · cases hf
  | succ level ih =>
    simp only [findPte] at hf
    split at hf
    · cases hf
    split at hf
    · cases hf
    · rename_i hp hl
      have ht : IsTable (level+1) (ram table (tableIndex vpn (level+1))) :=
        ⟨by simpa using hp, by simpa using hl⟩
      obtain ⟨haddr,hchild,-⟩ := (hw _ tableIndex_lt).2 ht
      obtain ⟨hpres,leaf,hwalk,hframe⟩ := ih hchild hf
      refine ⟨hpres, Leaf.under (ram table (tableIndex vpn (level+1))) leaf, ?_, hframe⟩
      simp only [walk, ht.1, ht.2, haddr, hwalk]
      simp

theorem walk_findPte_node {i : Nat} (hw : WellNode ram n level table)
    (hn : tableIndex vpn (level+1) < n) (hf : findPte ram (level+1) table vpn = some (f, i)) :
    ∃ leaf, walk ram (level+1) table vpn = some leaf ∧
      leaf.frame = entryAddr (ram f i) / pageSize := by
  simp only [findPte] at hf
  split at hf
  · cases hf
  split at hf
  · cases hf
  · rename_i hp hl
    have ht : IsTable (level+1) (ram table (tableIndex vpn (level+1))) :=
      ⟨by simpa using hp, by simpa using hl⟩
    obtain ⟨haddr,hchild,-⟩ := (hw _ hn).2 ht
    obtain ⟨-,leaf,hwalk,hframe⟩ := walk_findPte hchild hf
    refine ⟨Leaf.under (ram table (tableIndex vpn (level+1))) leaf, ?_, hframe⟩
    simp only [walk, ht.1, ht.2, haddr, hwalk]
    simp

/-- `map` gives `vpn` a leaf for `ppn` with the flags asked for; every other page translates
as before, with the same access, and the tables stay a tree. -/
theorem map_one_page (ram : Ram) (pool : List Nat) (root vpn ppn : Nat) (user write : Bool)
    (hw : WellFormed ram 3 root) (hs : Stock (InTree ram 3 root) pool) (hp : 3 ≤ pool.length) :
    ∃ ram' pool', map ram pool root 3 vpn ppn user write = some (ram', pool') ∧
      WellFormed ram' 3 root ∧
      (∃ f i, findPte ram' 3 root vpn = some (f, i) ∧ ram' f i = makeEntry ppn user write) ∧
      (∃ leaf, walk ram' 3 root vpn = some leaf ∧ leaf.frame = ppn % 2^40) ∧
      ∀ vpn', vpn' % 2^36 ≠ vpn % 2^36 → walk ram' 3 root vpn' = walk ram 3 root vpn' := by
  obtain ⟨ram',pool',hmap,-⟩ := map_isSome ram root vpn ppn user write hp
  obtain ⟨taken,-,hm⟩ := map_mapped hw hs hmap
  obtain ⟨f,i,hf,hentry⟩ := hm.leaf
  obtain ⟨-,leaf,hwalk,hframe⟩ := walk_findPte hm.wellFormed hf
  refine ⟨ram', pool', hmap, hm.wellFormed, ⟨f, i, hf, hentry⟩, ⟨leaf, hwalk, ?_⟩, hm.others⟩
  rw [hframe, hentry, entryAddr_makeEntry]
  simp only [pageSize]
  omega

/-- One page of a 1 GB page becomes read-only, and its neighbour stays. -/
def gigabyte : Ram := fun f i =>
  if f = 1 ∧ i = 0 then makeEntry 2 true true else if f = 2 ∧ i = 0 then 0x87 else 0

theorem gigabyte_leaves : (∀ i < 512, ¬IsTable 2 (gigabyte 2 i)) ∧
    ∀ i < 512, present (gigabyte 2 i) = true → isLarge 2 (gigabyte 2 i) = true →
      Aligned 2 (gigabyte 2 i) := by
  have hentry (i : Nat) : gigabyte 2 i = if i = 0 then 0x87 else 0 := by simp [gigabyte]
  refine ⟨fun i _ ht => ?_, fun i _ hp _ => ?_⟩
  · rw [hentry] at ht
    split at ht
    · exact absurd ht.2 (by decide)
    · exact absurd ht.1 (by decide)
  · rw [hentry] at hp ⊢
    split at hp
    · rename_i h0
      rw [if_pos h0]
      change _ = _
      decide
    · exact absurd hp (by decide)

theorem gigabyte_wellFormed : WellFormed gigabyte 3 1 ∧
    ∀ f, InTree gigabyte 3 1 f → f = 1 ∨ f = 2 := by
  have hentry (i : Nat) : gigabyte 1 i = if i = 0 then makeEntry 2 true true else 0 := by
    simp [gigabyte]
  have hppn : entryPpn (makeEntry 2 true true) = 2 := by decide
  have honly {i : Nat} (ht : IsTable 3 (gigabyte 1 i)) : i = 0 := by
    by_contra h0
    rw [hentry, if_neg h0] at ht
    exact absurd ht.1 (by decide)
  have htree {f : Nat} (hf : InTree gigabyte 2 2 f) : f = 2 :=
    inTree_leaves (fun _ => gigabyte_leaves.1) hf
  refine ⟨fun i hi => ⟨fun hp hl => ?_, fun ht => ?_⟩, fun f hf => ?_⟩
  · rw [isLarge, Bool.and_eq_true] at hl
    exact absurd hl.2 (by decide)
  · obtain rfl := honly ht
    rw [hentry, if_pos rfl, hppn]
    refine ⟨by decide, wellFormed_leaves (fun _ => gigabyte_leaves.1) gigabyte_leaves.2,
      fun hin => absurd (htree hin) (by decide), fun j _ hj htj => absurd (honly htj) hj⟩
  · obtain hf | ⟨i,-,ht,hf⟩ := hf
    · exact Or.inl hf
    · obtain rfl := honly ht
      rw [hentry, if_pos rfl, hppn] at hf
      exact Or.inr (htree hf)

theorem map_one_page_gigabyte : ∃ ram' pool',
    map gigabyte [3, 4, 5] 1 3 5 9 true false = some (ram', pool') ∧
      (∃ leaf, walk ram' 3 1 5 = some leaf ∧ leaf.frame = 9) ∧
      walk ram' 3 1 7 = some ⟨7, true, true⟩ := by
  obtain ⟨hw,htree⟩ := gigabyte_wellFormed
  have hs : Stock (InTree gigabyte 3 1) [3, 4, 5] := by
    refine ⟨by decide, fun f hf hin => ?_, by decide⟩
    obtain rfl | rfl := htree f hin <;> exact absurd hf (by decide)
  obtain ⟨ram',pool',hmap,-,-,hleaf,hother⟩ :=
    map_one_page gigabyte [3, 4, 5] 1 5 9 true false hw hs (by decide)
  refine ⟨ram', pool', hmap, hleaf, ?_⟩
  rw [hother 7 (by decide)]
  decide +kernel

end NetKernel.PageTables
