import NetKernel.Memory.AddressSpace

/-! The program break: what the loader maps for `/init`, and what `brk` maps after that. -/
namespace NetKernel.ProgramBreak
open Function PageTables Ownership Runs
open Teardown hiding State
open AddressSpaces (mapPage mapRange canonical)
open Vmes (pagesOf)
open Heaps (wrap)
open Frames (Ram storeWord zeroFrame)

/-- Memory, and the frames that `physMem.alloc` is going to return. -/
abbrev State : Type := Ram × List Nat

abbrev userTop : Nat := 0x800000000000
abbrev userStackTop : Nat := 0x7ffffff0000
abbrev userStackSize : Nat := 64*1024
abbrev brkLimit : Nat := userStackTop-userStackSize

/-- A program header with the fields that decide what is mapped. -/
structure ProgramHeader where
  type : UInt32
  vaddr : UInt64
  filesz : UInt64
  memsz : UInt64
deriving DecidableEq, Repr

def alignUp (value : Nat) : Nat := (value+4095) % 2^64 / 4096 * 4096

def alignDown (value : Nat) : Nat := value / 4096 * 4096

/-- The round of `compute_initial_brk`. -/
def maxEnd (highest : Nat) (phdr : ProgramHeader) : Nat :=
  if phdr.type ≠ 1 then highest
  else
    let finish := wrap (phdr.vaddr.toNat+phdr.memsz.toNat)
    if highest < finish then finish else highest

def computeInitialBrk (headers : List ProgramHeader) : Nat := alignUp (headers.foldl maxEnd 0)

def mapUserRange (root start length : Nat) (s : State) : Option State :=
  if length = 0 then some s
  else
    let mapStart := alignDown start
    let mapEnd := alignUp (start+length)
    mapRange root mapStart (wrap (mapEnd+2^64-mapStart)) true true s

/-- The round of `ELF::load`. -/
def loadSegment (root : Nat) (s : State) (phdr : ProgramHeader) : Option State :=
  if phdr.type ≠ 1 then some s
  else if phdr.memsz < phdr.filesz then none
  else mapUserRange root phdr.vaddr.toNat phdr.memsz.toNat s

/-- `ELF::load`. What it writes to the pages comes as the stores of a run. -/
def load (headers : List ProgramHeader) (root : Nat) (s : State) : Option State :=
  (headers.foldlM (loadSegment root) s).bind (mapUserRange root brkLimit userStackSize)

/-- A process. `highest` is the highest end of pages that the break has had, which the
source does not keep. -/
structure Process where
  ram : Ram
  stock : List Nat
  root : Nat
  brkMin : Nat
  brkCurrent : Nat
  highest : Nat

def Process.brk (p : Process) (addr : Nat) : Option (Nat × Process) :=
  if addr = 0 then some (p.brkCurrent, p)
  else if addr < p.brkMin ∨ brkLimit ≤ addr ∨ userTop ≤ addr then some (p.brkCurrent, p)
  else
    let oldMapEnd := alignUp p.brkCurrent
    let newMapEnd := alignUp addr
    let mapped :=
      if oldMapEnd < newMapEnd then
        mapRange p.root oldMapEnd (newMapEnd-oldMapEnd) true true (p.ram, p.stock)
      else some (p.ram, p.stock)
    let highest := max p.highest newMapEnd
    mapped.map fun (ram, stock) => (addr, ⟨ram, stock, p.root, p.brkMin, addr, highest⟩)

/-- The lower half of the address space has no page before the load. -/
def Process.Started (headers : List ProgramHeader) (p : Process) : Prop :=
  (∃ ram stock, (p.root :: stock).Nodup ∧ (∀ f ∈ p.root :: stock, f < 2^36) ∧
    (∀ i < 256, present (ram p.root i) = false) ∧
    load headers p.root (ram, stock) = some (p.ram, p.stock)) ∧
  p.brkMin = computeInitialBrk headers ∧ p.brkCurrent = p.brkMin ∧ p.highest = p.brkMin

/-- What stores and the other threads' `alloc` and `free` leave: the tables are as they were,
and no frame to come is a table or a page of the process. -/
structure Process.Elsewhere (p : Process) (ram : Ram) (stock : List Nat) : Prop where
  tables : ∀ f ∈ p.root :: below p.ram 256 2 p.root, ram f = p.ram f
  nodup : (stock ++ p.root :: below p.ram 256 3 p.root).Nodup
  small : ∀ f ∈ stock, f < 2^36
  pages : ∀ vpn < 2^35, ∀ leaf, walk p.ram 3 p.root vpn = some leaf → leaf.frame ∉ stock

/-- The calls of the process that meet a condition, and whatever happens elsewhere. -/
inductive BrkStep (allowed : Process → Nat → Prop) : Process → Process → Prop
  | brk {p p' : Process} {a : UInt64} {result : Nat} : allowed p a.toNat →
      p.brk a.toNat = some (result, p') → BrkStep allowed p p'
  | elsewhere {p : Process} {ram : Ram} {stock : List Nat} : p.Elsewhere ram stock →
      BrkStep allowed p { p with ram := ram, stock := stock }

def brkSystem (headers : List ProgramHeader) (allowed : Process → Nat → Prop) :
    System Process where
  Init := Process.Started headers
  Step := BrkStep allowed

/-! One page, and the pages of a range. -/

/-- The frames to come, the tables and the pages are apart. -/
structure Intact (root : Nat) (s : State) : Prop where
  nodup : (s.2 ++ root :: below s.1 256 3 root).Nodup
  small : ∀ f ∈ s.2 ++ root :: below s.1 256 3 root, f < 2^36
  wellNode : WellNode s.1 256 2 root
  openNode : OpenNode s.1 256 2 root
  pages : ∀ vpn < 2^35, ∀ leaf, walk s.1 3 root vpn = some leaf →
    leaf.frame ∉ s.2 ∧ ¬InNode s.1 256 2 root leaf.frame

/-- The pages of a list have frames from the stock, and other pages are as they were. -/
structure Placed (root : Nat) (s s' : State) (vpns : List Nat) : Prop where
  low : ∀ vpn ∈ vpns, vpn < 2^35
  mapped : ∀ vpn ∈ vpns, ∃ leaf, walk s'.1 3 root vpn = some leaf ∧ leaf.frame ∈ s.2
  others : ∀ vpn < 2^35, vpn ∉ vpns → walk s'.1 3 root vpn = walk s.1 3 root vpn
  same : ∀ f, ¬InNode s.1 256 2 root f → f ∉ s.2 → s'.1 f = s.1 f
  left : ∀ f ∈ s'.2, f ∈ s.2
  tables : ∀ f, InNode s'.1 256 2 root f → InNode s.1 256 2 root f ∨ f ∈ s.2

variable {root va : Nat} {s s' s₁ : State} {vpns vpns' : List Nat}

theorem Placed.refl : Placed root s s [] :=
  ⟨by simp, by simp, fun _ _ _ => rfl, fun _ _ _ => rfl, fun _ hf => hf, fun _ hf => Or.inl hf⟩

theorem Placed.trans (h : Placed root s s₁ vpns) (h' : Placed root s₁ s' vpns') :
    Placed root s s' (vpns ++ vpns') := by
  refine ⟨fun vpn hv => ?_, fun vpn hv => ?_, fun vpn hl hv => ?_, fun f hf hs => ?_,
    fun f hf => h.left f (h'.left f hf), fun f hf => ?_⟩
  · exact (List.mem_append.mp hv).elim (h.low vpn) (h'.low vpn)
  · by_cases hlast : vpn ∈ vpns'
    · obtain ⟨leaf,hw,hf⟩ := h'.mapped vpn hlast
      exact ⟨leaf, hw, h.left _ hf⟩
    · have hfirst := (List.mem_append.mp hv).resolve_right hlast
      obtain ⟨leaf,hw,hf⟩ := h.mapped vpn hfirst
      exact ⟨leaf, (h'.others vpn (h.low vpn hfirst) hlast).trans hw, hf⟩
  · rw [List.mem_append, not_or] at hv
    exact (h'.others vpn hl hv.2).trans (h.others vpn hl hv.1)
  · have hnot : ¬InNode s₁.1 256 2 root f := fun hin => (h.tables f hin).elim hf hs
    exact (h'.same f hnot fun hm => hs (h.left f hm)).trans (h.same f hf hs)
  · obtain hin | hm := h'.tables f hf
    · exact h.tables f hin
    · exact Or.inr (h.left f hm)

theorem Intact.stock (h : Intact root s) : Stock (InNode s.1 256 2 root) s.2 := by
  obtain ⟨hstock,-,hapart⟩ := List.nodup_append.mp h.nodup
  refine ⟨hstock, fun f hf hin => ?_, fun f hf => h.small f (List.mem_append_left _ hf)⟩
  exact hapart f hf f (inNode_below (by decide) hin) rfl

theorem Intact.tree (h : Intact root s) : Tree root (s.2 ++ root :: below s.1 256 3 root) s :=
  ⟨.refl _, plain_openNode h.openNode⟩

/-- The frames after a page is mapped are those before without the page's old one, if any. -/
theorem Intact.frames {ram : Ram} {f vpn : Nat} {pool : List Nat}
    (h : Intact root (ram, f :: pool)) (hv : vpn < 2^35)
    (hm : map (zeroFrame ram f) pool root 3 vpn f true true = some s') :
    ∃ gone, (gone ++ (s'.2 ++ root :: below s'.1 256 3 root)).Perm
      (f :: pool ++ root :: below ram 256 3 root) := by
  have hother (g : Nat) (hg : g ≠ f) : zeroFrame ram f g = ram g := update_of_ne hg _ _
  cases hf : findPte ram 3 root vpn with
  | none =>
    have hg := h.tree.map h.nodup h.small hother hv hf hm
    exact ⟨[], hg.tree.frames⟩
  | some pte =>
    obtain ⟨t,i⟩ := pte
    have hlist : (f :: (pool ++ root :: below ram 256 3 root)).Nodup := h.nodup
    have hin (g : Nat) (hg : g ∈ root :: below ram 256 3 root) : zeroFrame ram f g = ram g := by
      refine hother g fun heq => (List.nodup_cons.mp hlist).1 ?_
      exact List.mem_append_right _ (heq ▸ hg)
    have hn := (List.nodup_append.mp h.nodup).2.1
    have hedit := clear_edit (plain_openNode h.openNode) (index_low hv) hn hf
    generalize entryPpn (ram t i) = old at hedit
    have hframes : ([old] ++ below (storeWord ram t i 0) 256 3 root).Perm
        ([] ++ below ram 256 3 root) := hedit.frames
    have hperm : (old :: (f :: pool ++ root :: below (storeWord ram t i 0) 256 3 root)).Perm
        (f :: pool ++ root :: below ram 256 3 root) := by
      rw [List.perm_iff_count]
      intro a
      have hcount := hframes.count_eq a
      simp only [List.count_append, List.count_cons, List.count_nil] at hcount ⊢
      omega
    -- the entry is cleared first, which `map` does not notice
    have hclear : map (storeWord (zeroFrame ram f) t i 0) pool root 3 vpn f true true = some s' := by
      rw [map_cleared (index_low hv) (below_congr hin ▸ hn)
        ((findPte_congr (index_low hv) hin).trans hf)]
      exact hm
    have hsame (g : Nat) (hg : g ≠ f) :
        storeWord (zeroFrame ram f) t i 0 g = storeWord ram t i 0 g := by
      by_cases hgt : g = t
      · subst hgt
        rw [storeWord, storeWord, update_self, update_self, hother g hg]
      · rw [storeWord, storeWord, update_of_ne hgt, update_of_ne hgt, hother g hg]
    have htree : Tree root (f :: pool ++ root :: below (storeWord ram t i 0) 256 3 root)
        (storeWord ram t i 0, f :: pool) := ⟨.refl _, hedit.plain⟩
    have hnone : findPte (storeWord ram t i 0) 3 root vpn = none := by
      simpa using hedit.mapped
    have hg := htree.map (List.nodup_cons.mp (hperm.nodup_iff.mpr h.nodup)).2
      (fun g hg => h.small g (hperm.mem_iff.mp (List.mem_cons_of_mem _ hg))) hsame hv hnone hclear
    exact ⟨[old], (hg.tree.frames.cons old).trans hperm⟩

theorem Intact.mapPage (h : Intact root s) (hv : va >>> 12 < 2^35)
    (hs : mapPage root true true s va = some s') :
    Intact root s' ∧ Placed root s s' [va >>> 12] := by
  obtain ⟨ram,stock⟩ := s
  obtain ⟨ram',stock'⟩ := s'
  unfold AddressSpaces.mapPage at hs
  split at hs
  · cases stock with
    | nil => cases hs
    | cons f pool =>
      have hm : map (zeroFrame ram f) pool root 3 (va >>> 12) f true true = some (ram', stock') := hs
      have hst : Stock (InNode ram 256 2 root) (f :: pool) := h.stock
      obtain ⟨taken,hpool,hstored,-⟩ := map_stored h.wellNode hst (index_low hv)
        (fun g hg => update_of_ne hg _ _) hm
      subst hpool
      obtain ⟨hopen,hwalk⟩ := hstored.plain h.openNode
      obtain ⟨gone,hperm⟩ := h.frames hv hm
      have hlow (vpn : Nat) (hvpn : vpn < 2^35) : vpn % 512^4 = vpn := Nat.mod_eq_of_lt (by omega)
      have hothers (vpn : Nat) (hvpn : vpn < 2^35) (hne : vpn ≠ va >>> 12) :
          walk ram' 3 root vpn = walk ram 3 root vpn :=
        hstored.others vpn (index_low hvpn) (by rw [hlow _ hvpn, hlow _ hv]; exact hne)
      have hnodup : (gone ++ (stock' ++ root :: below ram' 256 3 root)).Nodup :=
        hperm.nodup_iff.mpr h.nodup
      have htables (g : Nat) (hg : InNode ram' 256 2 root g) :
          InNode ram 256 2 root g ∨ g ∈ f :: (taken ++ stock') :=
        (hstored.tables g hg).imp_right fun hm =>
          List.mem_cons_of_mem _ (List.mem_append_left _ hm)
      obtain ⟨hnot,hst'⟩ := List.nodup_cons.mp hst.nodup
      refine ⟨⟨(List.nodup_append.mp hnodup).2.1, fun g hg => ?_, hstored.wellNode, hopen,
        fun vpn hvpn leaf hw => ?_⟩, ⟨by simpa using hv, fun vpn hm => ?_, fun vpn hvpn hne => ?_,
        fun g hg hs => ?_, fun g hg => ?_, htables⟩⟩
      · exact h.small g (hperm.mem_iff.mp (List.mem_append_right _ hg))
      · by_cases heq : vpn = va >>> 12
        · rw [heq, hwalk] at hw
          cases hw
          refine ⟨fun hm => hnot (List.mem_append_right _ hm), fun hin => ?_⟩
          obtain hin | hm := hstored.tables f hin
          · exact hst.outside f List.mem_cons_self hin
          · exact hnot (List.mem_append_left _ hm)
        · rw [hothers vpn hvpn heq] at hw
          obtain ⟨hout,hin⟩ := h.pages vpn hvpn leaf hw
          refine ⟨fun hm => hout (List.mem_cons_of_mem _ (List.mem_append_right _ hm)), fun hin' => ?_⟩
          exact (htables _ hin').elim hin hout
      · rw [List.mem_singleton.mp hm]
        exact ⟨_, hwalk, List.mem_cons_self⟩
      · exact hothers vpn hvpn fun heq => hne (List.mem_singleton.mpr heq)
      · rw [List.mem_cons, List.mem_append, not_or, not_or] at hs
        exact hstored.same g hg hs.1 hs.2.1
      · exact List.mem_cons_of_mem _ (List.mem_append_right _ hg)
  · cases hs

theorem Intact.mapPages {pages : List Nat} (h : Intact root s)
    (hv : ∀ va ∈ pages, va >>> 12 < 2^35)
    (hs : pages.foldlM (AddressSpaces.mapPage root true true) s = some s') :
    Intact root s' ∧ Placed root s s' (pages.map (· >>> 12)) := by
  induction pages generalizing s with
  | nil =>
    cases hs
    exact ⟨h, .refl⟩
  | cons va pages ih =>
    rw [List.foldlM_cons] at hs
    obtain ⟨s₁,hs₁,hs⟩ := Option.bind_eq_some_iff.mp hs
    obtain ⟨h₁,hp₁⟩ := h.mapPage (hv va List.mem_cons_self) hs₁
    obtain ⟨h',hp'⟩ := ih h₁ (fun va' hm => hv va' (List.mem_cons_of_mem _ hm)) hs
    exact ⟨h', hp₁.trans hp'⟩

def pageNumbers (start length : Nat) : List Nat :=
  ((pagesOf 0 length).map fun i => wrap (start+i)).map (· >>> 12)

section Range
variable {start length vpn : Nat}

theorem mem_pageNumbers (ha : start % 4096 = 0) (hl : length % 4096 = 0)
    (hb : start+length ≤ 2^47) :
    vpn ∈ pageNumbers start length ↔ start ≤ vpn*4096 ∧ vpn*4096 < start+length := by
  have hpages (i : Nat) : i ∈ pagesOf 0 length ↔ i % 4096 = 0 ∧ 0 ≤ i ∧ i < length :=
    Vmes.mem_pagesOf rfl hl
  simp only [pageNumbers, List.map_map, List.mem_map, Function.comp, hpages, wrap,
    Nat.shiftRight_eq_div_pow]
  constructor
  · rintro ⟨i,⟨hi,-,hlt⟩,rfl⟩
    omega
  · rintro ⟨hle,hlt⟩
    exact ⟨vpn*4096-start, by omega, by omega⟩

theorem Intact.mapRange (h : Intact root s) (ha : start % 4096 = 0) (hl : length % 4096 = 0)
    (hb : start+length ≤ 2^47) (hs : mapRange root start length true true s = some s') :
    Intact root s' ∧ Placed root s s' (pageNumbers start length) := by
  unfold AddressSpaces.mapRange at hs
  split at hs
  · refine h.mapPages (fun va hm => ?_) hs
    have hmem : va >>> 12 ∈ pageNumbers start length := List.mem_map_of_mem hm
    have hin := (mem_pageNumbers ha hl hb).mp hmem
    omega
  · cases hs

theorem Intact.mapRange_fresh (h : Intact root s) (ha : start % 4096 = 0)
    (hl : length % 4096 = 0) (hb : start+length ≤ 2^47)
    (hfresh : ∀ vpn ∈ pageNumbers start length, walk s.1 3 root vpn = none)
    (hs : AddressSpaces.mapRange root start length true true s = some s') :
    (s'.2 ++ root :: below s'.1 256 3 root).Perm (s.2 ++ root :: below s.1 256 3 root) := by
  have hlen : length < 2^64 := by omega
  have hnodup : (pageNumbers start length).Nodup := by
    have := AddressSpaces.nodup_pages start (UInt64.ofNat length)
    rwa [UInt64.toNat_ofNat_of_lt' hlen] at this
  unfold AddressSpaces.mapRange at hs
  split at hs
  · have hg := AddressSpaces.mapPages_grown h.nodup h.small h.tree hnodup (fun va hm => ?_) hs
    · exact hg.tree.frames
    · have hmem : va >>> 12 ∈ pageNumbers start length := List.mem_map_of_mem hm
      have hin := (mem_pageNumbers ha hl hb).mp hmem
      have hv : va >>> 12 < 2^35 := by omega
      refine ⟨hv, Option.eq_none_iff_forall_ne_some.mpr fun pte hpte => ?_⟩
      obtain ⟨leaf,hw,-⟩ := walk_findPte_node h.wellNode (index_low hv) hpte
      rw [hfresh _ hmem] at hw
      cases hw
  · cases hs

/-! Four frames a page are enough. -/

theorem mapPages_isSome (pages : List Nat) (hc : ∀ va ∈ pages, canonical va = true)
    (hlen : 4*pages.length ≤ s.2.length) :
    ∃ s', pages.foldlM (AddressSpaces.mapPage root true true) s = some s' ∧
      s.2.length ≤ s'.2.length+4*pages.length := by
  induction pages generalizing s with
  | nil => exact ⟨s, rfl, Nat.le_refl _⟩
  | cons va pages ih =>
    obtain ⟨ram,stock⟩ := s
    rw [List.length_cons] at hlen ⊢
    cases stock with
    | nil => exact absurd hlen (by simp)
    | cons f pool =>
      dsimp only at hlen ⊢
      rw [List.length_cons] at hlen ⊢
      have hpool : 3 ≤ pool.length := by omega
      obtain ⟨ram',pool',hm,hleft⟩ := map_isSome (zeroFrame ram f) root (va >>> 12) f true true hpool
      have hone : AddressSpaces.mapPage root true true (ram, f :: pool) va = some (ram', pool') := by
        rw [AddressSpaces.mapPage, if_pos (hc va List.mem_cons_self)]
        exact hm
      have hrest : 4*pages.length ≤ pool'.length := by omega
      obtain ⟨s',hs,hrest⟩ := ih (s := (ram', pool'))
        (fun va' hm => hc va' (List.mem_cons_of_mem _ hm)) hrest
      refine ⟨s', ?_, by dsimp only at hrest; omega⟩
      rw [List.foldlM_cons, hone]
      exact hs

theorem mapRange_isSome (root start length : Nat) (s : State) (hl : length % 4096 = 0)
    (hb : start+length < 2^47) (hlen : length/1024 ≤ s.2.length) :
    ∃ s', AddressSpaces.mapRange root start length true true s = some s' ∧
      s.2.length ≤ s'.2.length+length/1024 := by
  have hcount : ((pagesOf 0 length).map fun i => wrap (start+i)).length = length/4096 := by
    rw [List.length_map, pagesOf, List.length_range']
    simp only [Vmes.pageSize]
    omega
  have hcanonical (va : Nat) (hva : va < 2^47) : canonical va = true := by
    rw [canonical, decide_eq_true hva, Bool.true_or]
  have hall (va : Nat) (hm : va ∈ (pagesOf 0 length).map fun i => wrap (start+i)) :
      canonical va = true := by
    obtain ⟨i,hi,rfl⟩ := List.mem_map.mp hm
    obtain ⟨-,-,hlt⟩ := (Vmes.mem_pagesOf rfl hl).mp hi
    refine hcanonical _ ?_
    unfold wrap
    omega
  have hpages : 4*((pagesOf 0 length).map fun i => wrap (start+i)).length ≤ s.2.length := by
    rw [hcount]
    omega
  obtain ⟨s',hs,hleft⟩ := mapPages_isSome _ hall hpages
  rw [hcount] at hleft
  refine ⟨s', ?_, by omega⟩
  rw [AddressSpaces.mapRange, if_pos (hcanonical start (by omega))]
  exact hs

end Range

/-! The load. -/

def ProgramHeader.Apart (phdr : ProgramHeader) (vpn : Nat) : Prop :=
  phdr.vaddr.toNat+phdr.memsz.toNat ≤ vpn*4096 ∨ vpn*4096+4096 ≤ phdr.vaddr.toNat

/-- The segment is loaded and ends before the last page of all addresses. -/
def ProgramHeader.Fits (phdr : ProgramHeader) : Prop :=
  phdr.type = 1 → phdr.vaddr.toNat+phdr.memsz.toNat ≤ 2^64-4096

theorem alignUp_le (value : Nat) (h : value ≤ 2^64-4096) :
    value ≤ alignUp value ∧ alignUp value < value+4096 ∧ alignUp value % 4096 = 0 := by
  unfold alignUp
  omega

theorem foldl_maxEnd {headers : List ProgramHeader} {highest : Nat}
    (hfit : ∀ phdr ∈ headers, phdr.Fits) (hh : highest ≤ 2^64-4096) :
    highest ≤ headers.foldl maxEnd highest ∧ headers.foldl maxEnd highest ≤ 2^64-4096 ∧
      ∀ phdr ∈ headers, phdr.type = 1 →
        phdr.vaddr.toNat+phdr.memsz.toNat ≤ headers.foldl maxEnd highest := by
  induction headers generalizing highest with
  | nil => exact ⟨le_refl _, hh, by simp⟩
  | cons phdr headers ih =>
    have hstep : highest ≤ maxEnd highest phdr ∧ maxEnd highest phdr ≤ 2^64-4096 ∧
        (phdr.type = 1 → phdr.vaddr.toNat+phdr.memsz.toNat ≤ maxEnd highest phdr) := by
      unfold maxEnd
      split
      · rename_i hne
        exact ⟨le_refl _, hh, fun heq => absurd heq hne⟩
      · rename_i heq
        have hle := hfit phdr List.mem_cons_self (not_not.mp heq)
        have hwrap : wrap (phdr.vaddr.toNat+phdr.memsz.toNat) =
            phdr.vaddr.toNat+phdr.memsz.toNat := Nat.mod_eq_of_lt (by omega)
        simp only [hwrap]
        split <;> omega
    obtain ⟨hge,hle,hall⟩ := ih (fun p hp => hfit p (List.mem_cons_of_mem _ hp)) hstep.2.1
    rw [List.foldl_cons]
    refine ⟨hstep.1.trans hge, hle, fun p hp ht => ?_⟩
    obtain rfl | hp := List.mem_cons.mp hp
    · exact (hstep.2.2 ht).trans hge
    · exact hall p hp ht

theorem Intact.mapUserRange {start length : Nat} (h : Intact root s) (hb : start+length ≤ 2^47)
    (hs : mapUserRange root start length s = some s') :
    Intact root s' ∧ ∃ vpns, Placed root s s' vpns ∧
      ∀ vpn ∈ vpns, alignDown start ≤ vpn*4096 ∧ vpn*4096 < alignUp (start+length) := by
  unfold ProgramBreak.mapUserRange at hs
  split at hs
  · cases hs
    exact ⟨h, [], .refl, by simp⟩
  have hup := alignUp_le (start+length) (by omega)
  have hdown : alignDown start ≤ start ∧ alignDown start % 4096 = 0 := by
    unfold alignDown
    omega
  have hlen : wrap (alignUp (start+length)+2^64-alignDown start) =
      alignUp (start+length)-alignDown start := by
    unfold wrap
    omega
  simp only [hlen] at hs
  obtain ⟨h',hp⟩ := h.mapRange hdown.2 (by omega) (by omega) hs
  refine ⟨h', _, hp, fun vpn hv => ?_⟩
  have hin := (mem_pageNumbers hdown.2 (by omega) (by omega)).mp hv
  omega

theorem Intact.loadSegments {headers : List ProgramHeader} {bound : Nat} (h : Intact root s)
    (hbound : ∀ phdr ∈ headers, phdr.type = 1 →
      alignUp (phdr.vaddr.toNat+phdr.memsz.toNat) ≤ bound ∧
        phdr.vaddr.toNat+phdr.memsz.toNat ≤ 2^47)
    (hs : headers.foldlM (loadSegment root) s = some s') :
    Intact root s' ∧ ∃ vpns, Placed root s s' vpns ∧ ∀ vpn ∈ vpns, vpn*4096 < bound := by
  induction headers generalizing s with
  | nil =>
    cases hs
    exact ⟨h, [], .refl, by simp⟩
  | cons phdr headers ih =>
    rw [List.foldlM_cons] at hs
    obtain ⟨s₁,hs₁,hs⟩ := Option.bind_eq_some_iff.mp hs
    have hone : Intact root s₁ ∧ ∃ vpns, Placed root s s₁ vpns ∧
        ∀ vpn ∈ vpns, vpn*4096 < bound := by
      unfold loadSegment at hs₁
      split at hs₁
      · cases hs₁
        exact ⟨h, [], .refl, by simp⟩
      rename_i ht
      split at hs₁
      · cases hs₁
      obtain ⟨hup,hlow⟩ := hbound phdr List.mem_cons_self (not_not.mp ht)
      obtain ⟨h₁,vpns,hp,hin⟩ := h.mapUserRange hlow hs₁
      exact ⟨h₁, vpns, hp, fun vpn hv => (hin vpn hv).2.trans_le hup⟩
    obtain ⟨h₁,vpns,hp,hin⟩ := hone
    obtain ⟨h',vpns',hp',hin'⟩ := ih h₁ (fun p hm => hbound p (List.mem_cons_of_mem _ hm)) hs
    refine ⟨h', vpns ++ vpns', hp.trans hp', fun vpn hv => ?_⟩
    exact (List.mem_append.mp hv).elim (hin vpn) (hin' vpn)

theorem intact_empty {ram : Ram} {stock : List Nat} (hn : (root :: stock).Nodup)
    (hsmall : ∀ f ∈ root :: stock, f < 2^36) (habsent : ∀ i < 256, present (ram root i) = false) :
    Intact root (ram, stock) ∧ ∀ vpn < 2^35, walk ram 3 root vpn = none := by
  have hnone (vpn : Nat) (hv : vpn < 2^35) : walk ram 3 root vpn = none := by
    simp [walk, habsent _ (index_low hv)]
  have hbelow : below ram 256 3 root = [] := below_absent habsent
  refine ⟨⟨?_, fun f hf => hsmall f ?_, fun i hi => ⟨fun hp => ?_, fun ht => ?_⟩, fun i hi hp => ?_,
    fun vpn hv leaf hw => ?_⟩, hnone⟩
  · rw [hbelow]
    exact (List.perm_append_singleton root stock).nodup_iff.mpr hn
  · rw [hbelow] at hf
    exact (List.perm_append_singleton root stock).mem_iff.mp hf
  · exact absurd hp (by simp [habsent i hi])
  · exact absurd ht.1 (by simp [habsent i hi])
  · exact absurd hp (by simp [habsent i hi])
  · rw [hnone vpn hv] at hw
    cases hw

/-! The break. -/

def Process.Accepts (p : Process) (addr : Nat) : Prop :=
  addr ≠ 0 ∧ p.brkMin ≤ addr ∧ addr < brkLimit

/-- A call that needs more pages starts at the highest end of pages that the break has had. -/
def Process.Rising (p : Process) (addr : Nat) : Prop :=
  p.Accepts addr → alignUp p.brkCurrent < alignUp addr → p.highest ≤ alignUp p.brkCurrent

/-- The pages that are mapped stay what they are, new pages are beside the segments and the
stack, and no frame is lost. -/
structure Undisturbed (headers : List ProgramHeader) (p p' : Process) : Prop where
  bounds : p'.brkCurrent ≠ p.brkCurrent → p.brkMin ≤ p'.brkCurrent ∧ p'.brkCurrent < brkLimit
  kept : ∀ vpn < 2^35, ∀ leaf, walk p.ram 3 p.root vpn = some leaf →
    walk p'.ram 3 p'.root vpn = some leaf ∧ p'.ram leaf.frame = p.ram leaf.frame
  beside : ∀ vpn < 2^35, walk p.ram 3 p.root vpn = none → (walk p'.ram 3 p'.root vpn).isSome →
    (∀ phdr ∈ headers, phdr.type = 1 → phdr.Apart vpn) ∧
      (vpn*4096+4096 ≤ userStackTop-userStackSize ∨ userStackTop ≤ vpn*4096)
  frames : (p'.stock ++ p'.root :: below p'.ram 256 3 p'.root).Perm
    (p.stock ++ p.root :: below p.ram 256 3 p.root)

/-- The pages from the start of the heap to its highest end are mapped, and none from there
to the stack. -/
structure Process.Grounded (p : Process) : Prop where
  intact : Intact p.root (p.ram, p.stock)
  covered : ∀ vpn < 2^35, p.brkMin ≤ vpn*4096 → vpn*4096 < p.highest →
    (walk p.ram 3 p.root vpn).isSome
  bounded : ∀ vpn < 2^35, (walk p.ram 3 p.root vpn).isSome →
    vpn*4096 < p.highest ∨ brkLimit ≤ vpn*4096

structure BrkInv (headers : List ProgramHeader) (p : Process) : Prop where
  brkMin : p.brkMin = computeInitialBrk headers
  le : p.brkMin ≤ p.brkCurrent
  current : p.brkCurrent = p.brkMin ∨ p.brkCurrent < brkLimit
  highest : alignUp p.brkCurrent ≤ p.highest
  top : p.highest = p.brkMin ∨ p.highest ≤ brkLimit
  grounded : p.brkMin < brkLimit → p.Grounded

section Initial
variable {headers : List ProgramHeader} {p p' : Process} {addr result : Nat}

theorem computeInitialBrk_ge (hfit : ∀ phdr ∈ headers, phdr.Fits) :
    computeInitialBrk headers % 4096 = 0 ∧ computeInitialBrk headers ≤ 2^64-4096 ∧
      ∀ phdr ∈ headers, phdr.type = 1 →
        phdr.vaddr.toNat+phdr.memsz.toNat ≤ computeInitialBrk headers := by
  obtain ⟨-,hle,hall⟩ := foldl_maxEnd hfit (Nat.zero_le _)
  obtain ⟨hge,hlt,hmod⟩ := alignUp_le _ hle
  refine ⟨hmod, ?_, fun phdr hp ht => (hall phdr hp ht).trans hge⟩
  unfold computeInitialBrk
  omega

theorem alignUp_aligned {value : Nat} (h : value % 4096 = 0) (hle : value ≤ 2^64-4096) :
    alignUp value = value := by
  unfold alignUp
  omega

theorem BrkInv.init (hfit : ∀ phdr ∈ headers, phdr.Fits) (hp : p.Started headers) :
    BrkInv headers p := by
  obtain ⟨⟨ram,stock,hn,hsmall,habsent,hload⟩,hmin,hcur,hhigh⟩ := hp
  obtain ⟨hmod,hle,hall⟩ := computeInitialBrk_ge hfit
  have halign : alignUp p.brkCurrent = p.highest := by
    rw [hcur, hhigh, hmin]
    exact alignUp_aligned hmod hle
  refine ⟨hmin, hcur.ge, Or.inl hcur, halign.le, Or.inl hhigh, fun hlow => ?_⟩
  obtain ⟨hempty,hnone⟩ := intact_empty hn hsmall habsent
  obtain ⟨s₁,hseg,hstack⟩ := Option.bind_eq_some_iff.mp hload
  have hlimit : brkLimit ≤ 2^47 := by decide
  have hbound (phdr : ProgramHeader) (hm : phdr ∈ headers) (ht : phdr.type = 1) :
      alignUp (phdr.vaddr.toNat+phdr.memsz.toNat) ≤ p.brkMin ∧
        phdr.vaddr.toNat+phdr.memsz.toNat ≤ 2^47 := by
    have hend := hall phdr hm ht
    obtain ⟨-,hlt,haligned⟩ := alignUp_le _ (hend.trans hle)
    omega
  obtain ⟨h₁,vpns,hp₁,hin⟩ := hempty.loadSegments hbound hseg
  obtain ⟨h₂,vpns',hp₂,hin'⟩ := h₁.mapUserRange (by decide) hstack
  refine ⟨h₂, fun vpn hv hge hlt => by omega, fun vpn hv hsome => ?_⟩
  have hboth := hp₁.trans hp₂
  by_cases hm : vpn ∈ vpns ++ vpns'
  · obtain hm | hm := List.mem_append.mp hm
    · exact Or.inl (hhigh ▸ hin vpn hm)
    · have hdown : alignDown brkLimit = brkLimit := by decide
      exact Or.inr (hdown ▸ (hin' vpn hm).1)
  · have hsame := hboth.others vpn hv hm
    rw [hnone vpn hv] at hsame
    rw [hsame] at hsome
    cases hsome

theorem brk_cases (hs : p.brk addr = some (result, p')) :
    ¬p.Accepts addr ∧ p' = p ∨ p.Accepts addr ∧ ∃ ram stock,
      p' = ⟨ram, stock, p.root, p.brkMin, addr, max p.highest (alignUp addr)⟩ ∧
      (alignUp p.brkCurrent < alignUp addr ∧ mapRange p.root (alignUp p.brkCurrent)
          (alignUp addr-alignUp p.brkCurrent) true true (p.ram, p.stock) = some (ram, stock) ∨
        alignUp addr ≤ alignUp p.brkCurrent ∧ (ram, stock) = (p.ram, p.stock)) := by
  unfold Process.brk at hs
  split at hs
  · rename_i h0
    cases hs
    exact Or.inl ⟨fun ha => ha.1 h0, rfl⟩
  split at hs
  · rename_i hout
    cases hs
    have hlimit : brkLimit ≤ userTop := by decide
    refine Or.inl ⟨fun ⟨_, hmin, hlt⟩ => ?_, rfl⟩
    omega
  rename_i h0 hin
  obtain ⟨⟨ram,stock⟩,hm,he⟩ := Option.map_eq_some_iff.mp hs
  cases he
  refine Or.inr ⟨⟨h0, by omega, by omega⟩, ram, stock, rfl, ?_⟩
  split at hm
  · rename_i hlt
    exact Or.inl ⟨hlt, hm⟩
  · rename_i hle
    exact Or.inr ⟨Nat.le_of_not_lt hle, (Option.some.inj hm).symm⟩

/-- A range of new pages: where it lies, and what mapping it does. -/
structure Growth (p : Process) (addr : Nat) (ram : Ram) (stock : List Nat) : Prop where
  intact : Intact p.root (ram, stock)
  placed : Placed p.root (p.ram, p.stock) (ram, stock)
    (pageNumbers (alignUp p.brkCurrent) (alignUp addr-alignUp p.brkCurrent))
  mem : ∀ vpn, vpn ∈ pageNumbers (alignUp p.brkCurrent) (alignUp addr-alignUp p.brkCurrent) ↔
    alignUp p.brkCurrent ≤ vpn*4096 ∧ vpn*4096 < alignUp addr
  above : p.brkMin ≤ alignUp p.brkCurrent
  below : alignUp addr ≤ brkLimit
  frames : p.Rising addr → (stock ++ p.root :: Ownership.below ram 256 3 p.root).Perm
    (p.stock ++ p.root :: Ownership.below p.ram 256 3 p.root)

theorem BrkInv.growth (h : BrkInv headers p) (ha : p.Accepts addr)
    (hlt : alignUp p.brkCurrent < alignUp addr) {ram : Ram} {stock : List Nat}
    (hs : mapRange p.root (alignUp p.brkCurrent) (alignUp addr-alignUp p.brkCurrent) true true
      (p.ram, p.stock) = some (ram, stock)) : Growth p addr ram stock := by
  obtain ⟨hne,hmin,hmax⟩ := ha
  have hground := h.grounded (by omega)
  have hcur : p.brkCurrent < brkLimit := by
    obtain heq | hlt := h.current <;> omega
  have hle := h.le
  have hlimit : brkLimit % 4096 = 0 ∧ brkLimit ≤ 2^47 := by decide
  obtain ⟨hge₁,hlt₁,hmod₁⟩ := alignUp_le p.brkCurrent (by omega)
  obtain ⟨hge₂,hlt₂,hmod₂⟩ := alignUp_le addr (by omega)
  have hend : alignUp p.brkCurrent+(alignUp addr-alignUp p.brkCurrent) = alignUp addr := by omega
  have hmem (vpn : Nat) :
      vpn ∈ pageNumbers (alignUp p.brkCurrent) (alignUp addr-alignUp p.brkCurrent) ↔
        alignUp p.brkCurrent ≤ vpn*4096 ∧ vpn*4096 < alignUp addr := by
    rw [mem_pageNumbers hmod₁ (by omega) (by omega), hend]
  obtain ⟨hintact,hplaced⟩ := hground.intact.mapRange hmod₁ (by omega) (by omega) hs
  refine ⟨hintact, hplaced, hmem, by omega, by omega, fun hr => ?_⟩
  refine hground.intact.mapRange_fresh hmod₁ (by omega) (by omega) (fun vpn hv => ?_) hs
  obtain ⟨hfrom,hto⟩ := (hmem vpn).mp hv
  refine Option.not_isSome_iff_eq_none.mp fun hsome => ?_
  have htop := hr ⟨hne, hmin, hmax⟩ hlt
  obtain hlow | hhigh := hground.bounded vpn (by omega) hsome <;> omega

theorem Growth.grounded {ram : Ram} {stock : List Nat} (hg : Growth p addr ram stock)
    (h : p.Grounded) (hhigh : alignUp p.brkCurrent ≤ p.highest) (htop : p.highest ≤ alignUp addr) :
    (⟨ram, stock, p.root, p.brkMin, addr, alignUp addr⟩ : Process).Grounded := by
  refine ⟨hg.intact, fun vpn hv hge hlt => ?_, fun vpn hv hsome => ?_⟩
  · by_cases hm : vpn ∈ pageNumbers (alignUp p.brkCurrent) (alignUp addr-alignUp p.brkCurrent)
    · obtain ⟨leaf,hw,-⟩ := hg.placed.mapped vpn hm
      exact Option.isSome_iff_exists.mpr ⟨leaf, hw⟩
    · have hbefore : vpn*4096 < p.highest := by
        have hnot := (hg.mem vpn).not.mp hm
        dsimp only at hlt
        omega
      change (walk ram 3 p.root vpn).isSome
      rw [hg.placed.others vpn hv hm]
      exact h.covered vpn hv hge hbefore
  · by_cases hm : vpn ∈ pageNumbers (alignUp p.brkCurrent) (alignUp addr-alignUp p.brkCurrent)
    · exact Or.inl ((hg.mem vpn).mp hm).2
    · have hsame : walk ram 3 p.root vpn = walk p.ram 3 p.root vpn := hg.placed.others vpn hv hm
      have hbefore : (walk p.ram 3 p.root vpn).isSome := hsame ▸ hsome
      exact (h.bounded vpn hv hbefore).imp_left fun hlt => hlt.trans_le htop

theorem BrkInv.brk (h : BrkInv headers p) (hr : p.Rising addr)
    (hs : p.brk addr = some (result, p')) : BrkInv headers p' := by
  obtain ⟨-,rfl⟩ | ⟨ha,ram,stock,rfl,hmap⟩ := brk_cases hs
  · exact h
  obtain ⟨hne,hmin,hmax⟩ := ha
  have hlimit : brkLimit % 4096 = 0 ∧ brkLimit ≤ 2^47 := by decide
  obtain ⟨hge,hlt,hmod⟩ := alignUp_le addr (by omega)
  have hhigh := h.highest
  have hground := h.grounded (by omega)
  obtain ⟨hgrow,hmap⟩ | ⟨hle,heq⟩ := hmap
  · have hg := h.growth ⟨hne, hmin, hmax⟩ hgrow hmap
    have htop := hr ⟨hne, hmin, hmax⟩ hgrow
    have hmax' : max p.highest (alignUp addr) = alignUp addr := by omega
    rw [hmax']
    exact ⟨h.brkMin, hmin, Or.inr hmax, le_refl _, Or.inr hg.below,
      fun _ => hg.grounded hground hhigh (by omega)⟩
  · have hmax' : max p.highest (alignUp addr) = p.highest := by omega
    cases heq
    rw [hmax']
    exact ⟨h.brkMin, hmin, Or.inr hmax, hle.trans hhigh, h.top,
      fun _ => ⟨hground.intact, hground.covered, hground.bounded⟩⟩

theorem BrkInv.elsewhere (h : BrkInv headers p) {ram : Ram} {stock : List Nat}
    (he : p.Elsewhere ram stock) : BrkInv headers { p with ram := ram, stock := stock } := by
  refine ⟨h.brkMin, h.le, h.current, h.highest, h.top, fun hlow => ?_⟩
  obtain ⟨hintact,hcovered,hbounded⟩ := h.grounded hlow
  have hin (f : Nat) (hf : InNode p.ram 256 2 p.root f) : ram f = p.ram f :=
    he.tables f (inNode_below (le_refl 2) hf)
  have hwalk (vpn : Nat) (hv : vpn < 2^35) : walk ram 3 p.root vpn = walk p.ram 3 p.root vpn :=
    walk_congr_node hin hintact.wellNode (index_low hv)
  have hbelow : below ram 256 3 p.root = below p.ram 256 3 p.root := below_congr_tables he.tables
  refine ⟨⟨?_, fun f hf => ?_, hintact.wellNode.congr hin, hintact.openNode.congr hin,
    fun vpn hv leaf hw => ?_⟩, fun vpn hv hge hlt => ?_, fun vpn hv hsome => ?_⟩
  · change (stock ++ p.root :: below ram 256 3 p.root).Nodup
    rw [hbelow]
    exact he.nodup
  · replace hf : f ∈ stock ++ p.root :: below ram 256 3 p.root := hf
    rw [hbelow] at hf
    obtain hf | hf := List.mem_append.mp hf
    · exact he.small f hf
    · exact hintact.small f (List.mem_append_right _ hf)
  · have hw' : walk p.ram 3 p.root vpn = some leaf := (hwalk vpn hv).symm.trans hw
    exact ⟨he.pages vpn hv leaf hw', fun hn =>
      (hintact.pages vpn hv leaf hw').2 ((inNode_congr hin).mp hn)⟩
  · change (walk ram 3 p.root vpn).isSome
    rw [hwalk vpn hv]
    exact hcovered vpn hv hge hlt
  · refine hbounded vpn hv ?_
    rw [← hwalk vpn hv]
    exact hsome

theorem brk_invariant (hfit : ∀ phdr ∈ headers, phdr.Fits) :
    (brkSystem headers Process.Rising).Invariant (BrkInv headers) where
  init _ hp := .init hfit hp
  step := by
    intro p p' h hs
    cases hs with
    | brk hr hbrk => exact h.brk hr hbrk
    | elsewhere he => exact h.elsewhere he

theorem BrkInv.undisturbed (h : BrkInv headers p) (hfit : ∀ phdr ∈ headers, phdr.Fits)
    (hr : p.Rising addr) (hs : p.brk addr = some (result, p')) : Undisturbed headers p p' := by
  have hsame (q : Process) (hw : q.ram = p.ram) (hst : q.stock = p.stock) (hroot : q.root = p.root)
      (hb : q.brkCurrent ≠ p.brkCurrent → p.brkMin ≤ q.brkCurrent ∧ q.brkCurrent < brkLimit) :
      Undisturbed headers p q := by
    refine ⟨hb, fun vpn _ leaf hl => ?_, fun vpn _ hnone hsome => ?_, ?_⟩
    · rw [hw, hroot]
      exact ⟨hl, rfl⟩
    · rw [hw, hroot, hnone] at hsome
      cases hsome
    · rw [hw, hst, hroot]
  obtain ⟨-,rfl⟩ | ⟨ha,ram,stock,rfl,hmap⟩ := brk_cases hs
  · exact hsame _ rfl rfl rfl fun hne => absurd rfl hne
  obtain ⟨hgrow,hmap⟩ | ⟨-,heq⟩ := hmap
  · have hg := h.growth ha hgrow hmap
    have hground := h.grounded (lt_of_le_of_lt ha.2.1 ha.2.2)
    have htop := hr ha hgrow
    have hfresh (vpn : Nat) (hv : vpn < 2^35) (hsome : (walk p.ram 3 p.root vpn).isSome) :
        vpn ∉ pageNumbers (alignUp p.brkCurrent) (alignUp addr-alignUp p.brkCurrent) := by
      intro hm
      obtain ⟨hfrom,hto⟩ := (hg.mem vpn).mp hm
      have hbelow := hg.below
      obtain hlow | hhigh := hground.bounded vpn hv hsome <;> omega
    refine ⟨fun _ => ha.2, fun vpn hv leaf hw => ?_, fun vpn hv hnone hsome => ?_, hg.frames hr⟩
    · have hnew := hfresh vpn hv (Option.isSome_iff_exists.mpr ⟨leaf, hw⟩)
      obtain ⟨hout,hin⟩ := hground.intact.pages vpn hv leaf hw
      exact ⟨(hg.placed.others vpn hv hnew).trans hw, hg.placed.same _ hin hout⟩
    · have hm : vpn ∈ pageNumbers (alignUp p.brkCurrent) (alignUp addr-alignUp p.brkCurrent) := by
        by_contra hm
        have hkept : walk ram 3 p.root vpn = walk p.ram 3 p.root vpn :=
          hg.placed.others vpn hv hm
        rw [hkept, hnone] at hsome
        cases hsome
      obtain ⟨hfrom,hto⟩ := (hg.mem vpn).mp hm
      have habove := hg.above
      have hbelow := hg.below
      obtain ⟨-,-,hall⟩ := computeInitialBrk_ge hfit
      rw [← h.brkMin] at hall
      have hlimit : brkLimit % 4096 = 0 := by decide
      refine ⟨fun phdr hp ht => Or.inl ((hall phdr hp ht).trans (habove.trans hfrom)), Or.inl ?_⟩
      change vpn*4096+4096 ≤ brkLimit
      omega
  · cases heq
    exact hsame _ rfl rfl rfl fun _ => ha.2

theorem BrkInv.rising_of_kept (h : BrkInv headers p) (hs : p.brk addr = some (result, p'))
    (hu : Undisturbed headers p p') : p.Rising addr := by
  intro ha hgrow
  by_contra hlt
  obtain ⟨hna,-⟩ | ⟨-,ram,stock,rfl,hmap⟩ := brk_cases hs
  · exact hna ha
  obtain ⟨-,hmap⟩ | ⟨hle,-⟩ := hmap
  · have hg := h.growth ha hgrow hmap
    have hground := h.grounded (lt_of_le_of_lt ha.2.1 ha.2.2)
    have hlimit : brkLimit ≤ 2^47 := by decide
    have hbelow := hg.below
    have hmod : alignUp p.brkCurrent % 4096 = 0 := by
      unfold alignUp
      omega
    obtain ⟨vpn,hpage⟩ : ∃ vpn, vpn*4096 = alignUp p.brkCurrent :=
      ⟨alignUp p.brkCurrent/4096, by omega⟩
    have habove := hg.above
    have hv : vpn < 2^35 := by omega
    have hbefore := hground.covered vpn hv (by omega) (by omega)
    obtain ⟨leaf,hw⟩ := Option.isSome_iff_exists.mp hbefore
    have hm : vpn ∈ pageNumbers (alignUp p.brkCurrent) (alignUp addr-alignUp p.brkCurrent) :=
      (hg.mem vpn).mpr ⟨by omega, by omega⟩
    obtain ⟨leaf',hw',hfrom⟩ := hg.placed.mapped vpn hm
    have heq : leaf' = leaf := Option.some.inj (hw'.symm.trans (hu.kept vpn hv leaf hw).1)
    exact (hground.intact.pages vpn hv leaf hw).1 (heq ▸ hfrom)
  · omega

/-- When no segment reaches the last page of all addresses, and every call that needs more
pages starts at the highest end of pages the break has had, the break stays in bounds, its
pages are mapped, and no call disturbs anything. A call against the second condition does. -/
theorem brk_undisturbed (headers : List ProgramHeader) (hfit : ∀ phdr ∈ headers, phdr.Fits)
    (p : Process) (hp : (brkSystem headers Process.Rising).Reachable p) :
    p.brkMin ≤ p.brkCurrent ∧
    (∀ vpn < 2^35, p.brkMin ≤ vpn*4096 → vpn*4096 < alignUp p.brkCurrent →
      (walk p.ram 3 p.root vpn).isSome) ∧
    ∀ (addr : UInt64) (result : Nat) (p' : Process), p.brk addr.toNat = some (result, p') →
      (Undisturbed headers p p' ↔ p.Rising addr.toNat) := by
  have h := (brk_invariant hfit).reachable hp
  refine ⟨h.le, fun vpn hv hge hlt => ?_, fun addr result p' hs => ⟨fun hu => ?_, fun hr => ?_⟩⟩
  · have hhigh := h.highest
    by_cases hlow : p.brkMin < brkLimit
    · exact (h.grounded hlow).covered vpn hv hge (hlt.trans_le hhigh)
    · -- a break beyond the limit never moves
      have hle := h.le
      have htop := h.top
      have hcur := h.current
      omega
  · exact h.rising_of_kept hs hu
  · exact h.undisturbed hfit hr hs

theorem brk_accepts (p : Process) {addr : Nat} (ha : p.Accepts addr)
    (hlen : (alignUp addr-alignUp p.brkCurrent)/1024 ≤ p.stock.length) :
    ∃ ram stock, p.brk addr = some (addr,
        ⟨ram, stock, p.root, p.brkMin, addr, max p.highest (alignUp addr)⟩) ∧
      p.stock.length ≤ stock.length+(alignUp addr-alignUp p.brkCurrent)/1024 := by
  obtain ⟨hne,hmin,hmax⟩ := ha
  have hlimit : brkLimit ≤ userTop ∧ brkLimit+4096 ≤ 2^47 := by decide
  have hmod (value : Nat) : alignUp value % 4096 = 0 := Nat.mul_mod_left ..
  have hup := alignUp_le addr (by omega)
  rw [Process.brk, if_neg hne, if_neg (by omega)]
  by_cases hgrow : alignUp p.brkCurrent < alignUp addr
  · have h₁ := hmod addr
    have h₂ := hmod p.brkCurrent
    obtain ⟨⟨ram,stock⟩,hs,hleft⟩ := mapRange_isSome p.root (alignUp p.brkCurrent)
      (alignUp addr-alignUp p.brkCurrent) (p.ram, p.stock) (by omega) (by omega) hlen
    refine ⟨ram, stock, ?_, hleft⟩
    simp only [if_pos hgrow, hs]
    rfl
  · refine ⟨p.ram, p.stock, ?_, Nat.le_add_right _ _⟩
    simp only [if_neg hgrow]
    rfl

end Initial

/-! A program of one page, whose break goes up, down and up again. -/

def onePage : List ProgramHeader := [⟨1, 0x400000, 0x1000, 0x1000⟩]

theorem onePage_fits : ∀ phdr ∈ onePage, phdr.Fits := by
  intro phdr hm
  rw [List.mem_singleton.mp hm]
  exact fun _ => by decide

theorem mapUserRange_aligned {start length : Nat} {t : Option State} (hpos : length ≠ 0)
    (hdown : alignDown start = start)
    (hlen : wrap (alignUp (start+length)+2^64-start) = length)
    (hs : mapRange root start length true true s = t) : mapUserRange root start length s = t := by
  rw [mapUserRange, if_neg hpos]
  simp only [hdown, hlen]
  exact hs

theorem onePage_started : ∃ p : Process, p.Started onePage ∧ p.brkMin = 0x401000 ∧
    32 ≤ p.stock.length := by
  have hframes : ∃ frames : List Nat, frames.length = 128 ∧ (1 :: frames).Nodup ∧
      ∀ f ∈ 1 :: frames, f < 2^36 := by
    refine ⟨List.range' 2 128, List.length_range', List.nodup_range' (s := 1) (n := 129), ?_⟩
    intro f hf
    have hf : f ∈ List.range' 1 129 := hf
    have := List.mem_range'_1.mp hf
    omega
  obtain ⟨frames,hlen,hn,hsmall⟩ := hframes
  obtain ⟨s₁,hs₁,h₁⟩ := mapRange_isSome 1 0x400000 0x1000 (fun _ _ => 0, frames)
    (by decide) (by decide) (by dsimp only; omega)
  dsimp only at h₁
  have hsize : userStackSize/1024 = 64 := by decide
  obtain ⟨⟨ram,stock⟩,hs₂,h₂⟩ := mapRange_isSome 1 brkLimit userStackSize s₁ (by decide) (by decide)
    (by omega)
  have hseg : loadSegment 1 (fun _ _ => 0, frames) ⟨1, 0x400000, 0x1000, 0x1000⟩ = some s₁ := by
    rw [loadSegment, if_neg (by decide), if_neg (by decide)]
    exact mapUserRange_aligned (by decide) (by decide) (by decide) hs₁
  have hload : load onePage 1 (fun _ _ => 0, frames) = some (ram, stock) := by
    rw [load, onePage, List.foldlM_cons, hseg]
    exact mapUserRange_aligned (by decide) (by decide) (by decide) hs₂
  have hbrk : computeInitialBrk onePage = 0x401000 := by decide
  refine ⟨⟨ram, stock, 1, 0x401000, 0x401000, 0x401000⟩, ⟨⟨_, _, hn, hsmall, fun _ _ => ?_, hload⟩,
    hbrk.symm, rfl, rfl⟩, rfl, ?_⟩
  · exact present_zero
  · dsimp only at h₂ ⊢
    omega

/-- The break goes up by a page and down again, with calls the condition lets through. -/
theorem onePage_shrunk : ∃ p : Process, (brkSystem onePage Process.Rising).Reachable p ∧
    p.brkMin = 0x401000 ∧ p.brkCurrent = 0x401000 ∧ p.highest = 0x402000 ∧
      28 ≤ p.stock.length := by
  obtain ⟨p,hp,hmin,hlen⟩ := onePage_started
  have hcur : p.brkCurrent = 0x401000 := hp.2.2.1.trans hmin
  have hhigh : p.highest = 0x401000 := hp.2.2.2.trans hmin
  have hup : alignUp 0x401000 = 0x401000 ∧ alignUp 0x402000 = 0x402000 := by decide
  have hlimit : 0x402000 < brkLimit := by decide
  have ha : p.Accepts 0x402000 := ⟨by decide, by omega, hlimit⟩
  obtain ⟨ram,stock,hgrow,hleft⟩ := brk_accepts p ha (by rw [hcur, hup.1, hup.2]; omega)
  rw [hcur, hup.1, hup.2] at hleft
  have hrising : p.Rising 0x402000 := fun _ _ => by
    rw [hcur, hhigh, hup.1]
  have h₁ : (brkSystem onePage Process.Rising).Reachable
      ⟨ram, stock, p.root, p.brkMin, 0x402000, max p.highest (alignUp 0x402000)⟩ :=
    .step (.init hp) (.brk (a := 0x402000) hrising hgrow)
  generalize hq : Process.mk ram stock p.root p.brkMin 0x402000 _ = q at h₁
  have hq' : q.brkMin = 0x401000 ∧ alignUp q.brkCurrent = 0x402000 ∧ q.highest = 0x402000 ∧
      q.stock = stock := by
    subst hq
    refine ⟨hmin, hup.2, ?_, rfl⟩
    change max p.highest (alignUp 0x402000) = 0x402000
    rw [hup.2, hhigh]
    decide
  obtain ⟨hqmin,hqcur,hqhigh,hqstock⟩ := hq'
  have hb : q.Accepts 0x401000 := ⟨by decide, hqmin.le, by omega⟩
  obtain ⟨ram',stock',hshrink,hleft'⟩ := brk_accepts q hb (by
    rw [hqcur, hup.1]
    exact Nat.zero_le _)
  rw [hqcur, hup.1, hqstock] at hleft'
  have hrising' : q.Rising 0x401000 := fun _ hlt => by
    rw [hqcur, hup.1] at hlt
    omega
  refine ⟨_, .step h₁ (.brk (a := 0x401000) hrising' hshrink), hqmin, rfl, ?_, ?_⟩
  · change max q.highest (alignUp 0x401000) = 0x402000
    rw [hup.1, hqhigh]
    decide
  · dsimp only
    omega

/-- The condition holds on the way, and what the theorem says is so there. -/
theorem brk_undisturbed_shrunk : ∃ p : Process,
    (brkSystem onePage Process.Rising).Reachable p ∧ p.brkCurrent = 0x401000 ∧
      p.highest = 0x402000 ∧ p.brkMin ≤ p.brkCurrent ∧
      ∀ (addr : UInt64) (result : Nat) (p' : Process), p.brk addr.toNat = some (result, p') →
        (Undisturbed onePage p p' ↔ p.Rising addr.toNat) := by
  obtain ⟨p,hp,-,hcur,hhigh,-⟩ := onePage_shrunk
  obtain ⟨hle,-,hall⟩ := brk_undisturbed onePage onePage_fits p hp
  exact ⟨p, hp, hcur, hhigh, hle, hall⟩

theorem reachable_any {headers : List ProgramHeader} {allowed : Process → Nat → Prop} {p : Process}
    (h : (brkSystem headers allowed).Reachable p) :
    (brkSystem headers fun _ _ => True).Reachable p := by
  induction h with
  | init hi => exact .init hi
  | step _ hs ih =>
    refine ih.step ?_
    cases hs with
    | brk _ hb => exact .brk trivial hb
    | elsewhere he => exact .elsewhere he

/-- The break goes up once more, over the page it had before. -/
theorem brk_disturbs : ¬∀ p, (brkSystem onePage fun _ _ => True).Reachable p →
    ∀ (addr : UInt64) (result : Nat) (p' : Process), p.brk addr.toNat = some (result, p') →
      Undisturbed onePage p p' := by
  intro hall
  obtain ⟨p,hp,hmin,hcur,hhigh,hlen⟩ := onePage_shrunk
  have hup : alignUp 0x401000 = 0x401000 ∧ alignUp 0x402000 = 0x402000 := by decide
  have ha : p.Accepts 0x402000 := ⟨by decide, by omega, by decide⟩
  obtain ⟨ram,stock,hgrow,-⟩ := brk_accepts p ha (by rw [hcur, hup.1, hup.2]; omega)
  have hu := hall p (reachable_any hp) 0x402000 _ _ hgrow
  have hrising := ((brk_invariant onePage_fits).reachable hp).rising_of_kept hgrow hu ha
  rw [hcur, hhigh, hup.1, hup.2] at hrising
  exact absurd (hrising (by decide)) (by decide)

end NetKernel.ProgramBreak
