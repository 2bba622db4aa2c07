import NetKernel.Memory.Ownership

/-! How frames go back to `physMem`: the removal of a page, and the removal of the tables of
a thread. The frames that `alloc` is going to return are a list, which `free` puts a frame in
front of; `usable` and `link` are the test and the link word of `free`. -/
namespace NetKernel.Teardown
open Function PageTables Ownership
open Frames (Ram storeWord)

/-- Memory, and the frames that `physMem.alloc` is going to return. -/
abbrev State : Type := Ram × List Nat

section Definitions
variable (usable : Nat → Bool) (link : List Nat → Nat)

def free (s : State) (frame : Nat) : State :=
  if frame = 0 then s
  else if usable frame = false then s
  else if frame ∈ s.2 then s
  else (storeWord s.1 frame 0 (link s.2), frame :: s.2)

/-- The round of `munmap` and of `free_mapped_frames` for the page at `va`. -/
def unmapPage (root : Nat) (s : State) (va : Nat) : State :=
  match findPte s.1 3 root (va >>> 12) with
  | none => s
  | some (table, index) =>
    if present (s.1 table index) then
      let rawPpn := entryPpn (s.1 table index)
      let s := (storeWord s.1 table index 0, s.2)
      if rawPpn ≠ 0 then free usable link s rawPpn else s
    else s

def unmapPages (root : Nat) (pages : List Nat) (s : State) : State :=
  pages.foldl (unmapPage usable link root) s

/-- `PA(ppn).pa() < CONFIGURED_MAX_PA`. -/
def ppnInConfiguredPhys (ppn : Nat) : Bool := decide (ppn*4096 < 0x8000000)

/-- The loop of `free_table_tree` and of `free_private_page_tables` over the first `n`
entries of a table of a level, where `freeChild` is the call for what is below a child. -/
def freeEntries (n level table : Nat) (freeChild : Nat → State → State) (s : State) : State :=
  (List.range n).foldl (fun s i =>
    let entry := s.1 table i
    if present entry = false then s
    else if isLarge level entry then (storeWord s.1 table i 0, s.2)
    else
      let child := entryPpn entry
      if child = 0 ∨ ppnInConfiguredPhys child = false then (storeWord s.1 table i 0, s.2)
      else
        let s := freeChild child s
        free usable link (storeWord s.1 table i 0, s.2) child) s

def freeTableTree : Nat → Nat → State → State
  | 0, _ => fun s => s
  | levelsBelow+1, table =>
    freeEntries usable link 512 (levelsBelow+1) table (freeTableTree levelsBelow)

/-- The source has no test for large pages here, and no entry of a root is one. -/
def freePrivatePageTables (root : Nat) (s : State) : State :=
  freeEntries usable link 256 3 root (freeTableTree usable link 2) s

end Definitions

theorem free_physMem {d : Frames.DirectMap} {m : Frames.MemoryMap} {ram : Ram}
    {pm : Frames.PhysMem} {onList allocated : List Nat} {f : Nat}
    (h : Frames.Supply d m ram pm onList allocated) :
    ∃ onList', Frames.Supply d m (pm.free d m.entries ram f).1 (pm.free d m.entries ram f).2
        onList' (allocated.erase f) ∧
      free (fun f => Frames.paInUsableRange m.entries (f*Frames.frameSize)) (fun _ => pm.avail)
        (ram, onList ++ pm.rangeFrames) f =
          ((pm.free d m.entries ram f).1, onList' ++ (pm.free d m.entries ram f).2.rangeFrames) := by
  have hstock : f ∈ onList ++ pm.rangeFrames ↔ f ∈ pm.rangeFrames ∨ f ∈ onList := by
    rw [List.mem_append, or_comm]
  by_cases hf : f ∈ allocated
  · obtain ⟨heq,hsupply⟩ := h.free hf
    obtain ⟨hfresh,hlisted⟩ := h.apart
    have husable := h.usable (Or.inr (Or.inr hf))
    have hnot : f ∉ onList ++ pm.rangeFrames := fun hm => by
      obtain hm | hm := hstock.mp hm
      · exact (hfresh f hm).2 hf
      · exact hlisted f hm hf
    have hpa := (m.paInUsableRange_iff f).mpr husable
    have hpos := (m.usable_lt husable).1
    refine ⟨f :: onList, ?_, ?_⟩
    · rw [heq]
      exact hsupply
    · rw [heq, free, if_neg (by omega), if_neg (by simp [hpa]), if_neg hnot]
      refine congrArg (Prod.mk _) ?_
      exact congrArg (fun frames => f :: (onList ++ frames)) (Frames.rangeFrames_track pm f 2).symm
  · rw [h.free_other hf, List.erase_of_not_mem hf]
    refine ⟨onList, h, ?_⟩
    unfold free
    split
    · rfl
    split
    · rfl
    rename_i hpa
    have husable := (m.paInUsableRange_iff f).mp (by simpa using hpa)
    rw [if_pos]
    rw [hstock]
    obtain hm | hm := List.mem_append.mp (h.parts.mem_iff.mpr husable)
    · exact Or.inl hm
    · exact Or.inr ((List.mem_append.mp hm).resolve_right hf)

/-- A frame that `free` takes and that the removal of tables does not pass over. -/
structure Good (usable : Nat → Bool) (f : Nat) : Prop where
  nonzero : f ≠ 0
  usable : usable f = true
  configured : ppnInConfiguredPhys f = true

variable {usable : Nat → Bool} {link : List Nat → Nat} {s : State} {f root va vpn : Nat}
  {stock₀ : List Nat}

theorem Good.lt (hg : Good usable f) : f < 2^36 := by
  have hlt := hg.configured
  rw [ppnInConfiguredPhys, decide_eq_true_eq] at hlt
  omega

theorem free_good (hg : Good usable f) (hn : f ∉ s.2) :
    free usable link s f = (storeWord s.1 f 0 (link s.2), f :: s.2) := by
  rw [free, if_neg hg.nonzero, if_neg (by simp [hg.usable]), if_neg hn]

/-- The frames to come and those of a thread's root, tables and pages are those there were. -/
structure Tree (root : Nat) (stock₀ : List Nat) (s : State) : Prop where
  frames : (s.2 ++ root :: below s.1 256 3 root).Perm stock₀
  plain : Plain s.1 256 3 root

/-- The pages of `new` may have come into the tree. -/
structure Grown (root : Nat) (stock₀ : List Nat) (s s' : State) (new : Nat → Prop) : Prop where
  tree : Tree root stock₀ s'
  same : ∀ f, f ∉ stock₀ → s'.1 f = s.1 f
  mapped : ∀ vpn < 2^35, (findPte s'.1 3 root vpn).isSome →
    new vpn ∨ (findPte s.1 3 root vpn).isSome

theorem Tree.grown (h : Tree root stock₀ s) (new : Nat → Prop) : Grown root stock₀ s s new :=
  ⟨h, fun _ _ => rfl, fun _ _ hsome => Or.inr hsome⟩

theorem Grown.trans {s₁ s₂ : State} {new new' : Nat → Prop} (h : Grown root stock₀ s s₁ new)
    (h' : Grown root stock₀ s₁ s₂ new') :
    Grown root stock₀ s s₂ fun vpn => new vpn ∨ new' vpn := by
  refine ⟨h'.tree, fun f hf => (h'.same f hf).trans (h.same f hf), fun vpn hv hsome => ?_⟩
  obtain hnew | hsome := h'.mapped vpn hv hsome
  · exact Or.inl (Or.inr hnew)
  · exact (h.mapped vpn hv hsome).imp_left Or.inl

theorem Grown.mono {s' : State} {new new' : Nat → Prop} (h : Grown root stock₀ s s' new)
    (himp : ∀ vpn, new vpn → new' vpn) : Grown root stock₀ s s' new' :=
  ⟨h.tree, h.same, fun vpn hv hsome => (h.mapped vpn hv hsome).imp_left (himp vpn)⟩

theorem Tree.map {ram ram₁ : Ram} {pool : List Nat} {s' : State} {u w : Bool}
    (h : Tree root stock₀ (ram, f :: pool)) (hnodup : stock₀.Nodup)
    (hsmall₀ : ∀ f ∈ stock₀, f < 2^36) (hsame : ∀ g, g ≠ f → ram₁ g = ram g)
    (hv : vpn < 2^35) (hfree : findPte ram 3 root vpn = none)
    (hm : PageTables.map ram₁ pool root 3 vpn f u w = some s') :
    Grown root stock₀ (ram, f :: pool) s' (· = vpn) := by
  obtain ⟨ram',pool'⟩ := s'
  obtain ⟨hframes,hplain⟩ := h
  dsimp only at hframes hplain
  rw [List.cons_append] at hframes
  have hall := hframes.nodup_iff.mpr hnodup
  have hin (g : Nat) (hg : g ∈ root :: below ram 256 3 root) : ram₁ g = ram g := by
    refine hsame g fun hgf => (List.nodup_cons.mp hall).1 ?_
    exact List.mem_append_right _ (hgf ▸ hg)
  have hsmall (g : Nat) (hg : g ∈ f :: pool) : g < 2^36 := by
    have hmem : g ∈ stock₀ := by
      rw [← List.cons_append] at hframes
      exact hframes.mem_iff.mp (List.mem_append_left _ hg)
    exact hsmall₀ g hmem
  have hpte (vpn : Nat) (hv : vpn < 2^35) : findPte ram₁ 3 root vpn = findPte ram 3 root vpn :=
    findPte_congr (index_low hv) hin
  obtain ⟨taken,rfl,he⟩ := map_edit (hplain.congr hin) (index_low hv)
    (below_congr hin ▸ hall) hsmall ((hpte vpn hv).trans hfree) hm
  refine ⟨⟨?_, he.plain⟩, fun g hg => ?_, fun vpn' hv' hsome => ?_⟩
  · change (pool' ++ root :: below ram' 256 3 root).Perm stock₀
    refine List.Perm.trans ?_ hframes
    rw [List.perm_iff_count]
    intro a
    have hcount := he.frames.count_eq a
    rw [below_congr hin, List.nil_append] at hcount
    simp only [List.count_append, List.count_cons] at hcount ⊢
    omega
  · have hnot := hframes.mem_iff.not.mpr hg
    simp only [List.mem_cons, List.mem_append, not_or] at hnot
    obtain ⟨hgf,⟨hgt,-⟩,hgr,hgb⟩ := hnot
    refine (he.same g hgr (below_congr hin ▸ hgb) ?_).trans (hsame g hgf)
    simp only [List.mem_cons, not_or]
    exact ⟨hgf, hgt⟩
  · by_cases heq : vpn' = vpn
    · exact Or.inl heq
    · have hlow (v : Nat) (hv : v < 2^35) : v % 512^(3+1) = v := Nat.mod_eq_of_lt (by omega)
      rw [he.others vpn' (index_low hv') (by rw [hlow _ hv', hlow _ hv]; exact heq),
        hpte vpn' hv'] at hsome
      exact Or.inr hsome

section Unmap
variable (link) (hnodup : stock₀.Nodup) (hgood : ∀ f ∈ stock₀, Good usable f)
include hnodup hgood

theorem Tree.unmapPage (h : Tree root stock₀ s) (hv : va >>> 12 < 2^35) :
    Tree root stock₀ (unmapPage usable link root s va) ∧
      findPte (Teardown.unmapPage usable link root s va).1 3 root (va >>> 12) = none ∧
      ∀ vpn < 2^35, (findPte (Teardown.unmapPage usable link root s va).1 3 root vpn).isSome →
        (findPte s.1 3 root vpn).isSome := by
  unfold Teardown.unmapPage
  cases hf : findPte s.1 3 root (va >>> 12) with
  | none => exact ⟨h, hf, fun _ _ hvpn => hvpn⟩
  | some pte =>
    obtain ⟨t,i⟩ := pte
    have hpres : present (s.1 t i) = true := findPte_present hf
    have hall := h.frames.nodup_iff.mpr hnodup
    have hedit := clear_edit h.plain (index_low hv) (List.nodup_append.mp hall).2.1 hf
    dsimp only
    rw [if_pos hpres]
    generalize hraw : entryPpn (s.1 t i) = raw at hedit
    generalize storeWord s.1 t i 0 = ram at hedit
    have hframes : (raw :: (s.2 ++ root :: below ram 256 3 root)).Perm stock₀ := by
      refine List.Perm.trans ?_ h.frames
      rw [List.perm_iff_count]
      intro a
      have hcount := hedit.frames.count_eq a
      simp only [List.count_append, List.count_cons, List.count_nil] at *
      omega
    have hg : Good usable raw := hgood raw (hframes.mem_iff.mp List.mem_cons_self)
    have hnot := (List.nodup_cons.mp (hframes.nodup_iff.mpr hnodup)).1
    rw [List.mem_append, not_or] at hnot
    have hfree : free usable link (ram, s.2) raw =
        (storeWord ram raw 0 (link s.2), raw :: s.2) := free_good hg hnot.1
    rw [if_pos hg.nonzero, hfree]
    have hsame (f : Nat) (hf : f ∈ root :: below ram 256 3 root) :
        storeWord ram raw 0 (link s.2) f = ram f := by
      rw [storeWord, update_of_ne]
      rintro rfl
      exact hnot.2 hf
    have hpte (vpn : Nat) (hvpn : vpn < 2^35) :
        findPte (storeWord ram raw 0 (link s.2)) 3 root vpn = findPte ram 3 root vpn :=
      findPte_congr (index_low hvpn) hsame
    refine ⟨⟨?_, hedit.plain.congr hsame⟩, ?_, fun vpn hvpn hsome => ?_⟩
    · rw [below_congr hsame]
      exact hframes
    · rw [hpte _ hv]
      simpa using hedit.mapped
    · rw [hpte vpn hvpn] at hsome
      by_cases heq : vpn = va >>> 12
      · rw [heq, hf]
        rfl
      · have hlow (v : Nat) (hv : v < 2^35) : v % 512^(3+1) = v := Nat.mod_eq_of_lt (by omega)
        rwa [← hedit.others vpn (index_low hvpn) (by rw [hlow vpn hvpn, hlow _ hv]; exact heq)]

theorem Tree.unmapPages {pages : List Nat} (h : Tree root stock₀ s)
    (hp : ∀ va ∈ pages, va >>> 12 < 2^35) :
    Tree root stock₀ (unmapPages usable link root pages s) ∧
      ∀ vpn < 2^35, (findPte (Teardown.unmapPages usable link root pages s).1 3 root vpn).isSome →
        (findPte s.1 3 root vpn).isSome ∧ ∀ va ∈ pages, va >>> 12 ≠ vpn := by
  induction pages generalizing s with
  | nil => exact ⟨h, fun vpn _ hsome => ⟨hsome, by simp⟩⟩
  | cons va pages ih =>
    obtain ⟨htree,hnone,hless⟩ := h.unmapPage link hnodup hgood (hp va List.mem_cons_self)
    obtain ⟨hall,hrest⟩ := ih htree fun va hva => hp va (List.mem_cons_of_mem _ hva)
    refine ⟨hall, fun vpn hvpn hsome => ?_⟩
    obtain ⟨hmid,hnot⟩ := hrest vpn hvpn hsome
    refine ⟨hless vpn hvpn hmid, fun va' hva => ?_⟩
    obtain rfl | hva := List.mem_cons.mp hva
    · rintro rfl
      rw [hnone] at hmid
      cases hmid
    · exact hnot va' hva

end Unmap

/-! The removal of tables. -/

def Frees (usable : Nat → Bool) (depth : Nat) (freeChild : Nat → State → State) : Prop :=
  ∀ c s, (s.2 ++ nodes s.1 depth c).Nodup → Plain s.1 512 depth c →
    (∀ f ∈ nodes s.1 depth c, Good usable f) →
      (c :: (freeChild c s).2).Perm (s.2 ++ nodes s.1 depth c) ∧
        ∀ f, f ∉ nodes s.1 depth c → (freeChild c s).1 f = s.1 f

variable {n depth table : Nat} {freeChild : Nat → State → State}

theorem freeEntries_spec (hc : Frees usable depth freeChild)
    (hn : (s.2 ++ table :: below s.1 n depth table).Nodup) (hp : Plain s.1 n (depth+1) table)
    (hg : ∀ f ∈ below s.1 n depth table, Good usable f) :
    (freeEntries usable link n (depth+1) table freeChild s).2.Perm
        (s.2 ++ below s.1 n depth table) ∧
      (∀ f, f ≠ table → f ∉ below s.1 n depth table →
        (freeEntries usable link n (depth+1) table freeChild s).1 f = s.1 f) ∧
      ∀ i, n ≤ i → (freeEntries usable link n (depth+1) table freeChild s).1 table i =
        s.1 table i := by
  induction n with
  | zero => simp [freeEntries, below]
  | succ n ih =>
    rw [below_succ] at hn hg ⊢
    obtain ⟨hperm,hsame,hlater⟩ := ih (hn.sublist (by simp)) (fun i hi => hp i (by omega))
      fun f hf => hg f (List.mem_append_left _ hf)
    rw [freeEntries, List.range_succ, List.foldl_append, ← freeEntries]
    generalize hs₁ : freeEntries usable link n (depth+1) table freeChild s = s₁ at *
    simp only [List.foldl_cons, List.foldl_nil, hlater n (Nat.le_refl n)]
    by_cases hpres : present (s.1 table n) = true
    · obtain ⟨hl,hplain⟩ := hp n (Nat.lt_succ_self n) hpres
      rw [child_present hpres] at hn hg ⊢
      generalize entryPpn (s.1 table n) = c at *
      have hgc : Good usable c := hg c (List.mem_append_right _ nodes_self)
      have hcount := List.nodup_iff_count_le_one.mp hn
      simp only [List.count_append, List.count_cons] at hcount
      have hapart (f : Nat) (hf : f ∈ nodes s.1 depth c) :
          f ≠ table ∧ f ∉ below s.1 n depth table := by
        have hone := hcount f
        have hpos := List.count_pos_iff.mpr hf
        refine ⟨fun h => ?_, fun h => ?_⟩
        · rw [if_pos (by simp [h])] at hone
          omega
        · have := List.count_pos_iff.mpr h
          omega
      have hsame₁ (f : Nat) (hf : f ∈ nodes s.1 depth c) : s₁.1 f = s.1 f :=
        hsame f (hapart f hf).1 (hapart f hf).2
      have hnodes : nodes s₁.1 depth c = nodes s.1 depth c := nodes_congr hsame₁
      have hgood (f : Nat) (hf : f ∈ nodes s.1 depth c) : Good usable f :=
        hg f (List.mem_append_right _ hf)
      have hone₁ : (s₁.2 ++ nodes s.1 depth c).Nodup := by
        rw [List.nodup_iff_count_le_one]
        intro a
        have h₁ := hcount a
        have h₂ := hperm.count_eq a
        simp only [List.count_append] at *
        omega
      obtain ⟨hfreed,hkept⟩ := hc c s₁ (hnodes ▸ hone₁) (hplain.congr_nodes hsame₁)
        (hnodes ▸ hgood)
      rw [hnodes] at hfreed hkept
      have hnot : c ∉ (freeChild c s₁).2 :=
        (List.nodup_cons.mp (hfreed.nodup_iff.mpr hone₁)).1
      have hfree : free usable link (storeWord (freeChild c s₁).1 table n 0, (freeChild c s₁).2) c =
          (storeWord (storeWord (freeChild c s₁).1 table n 0) c 0 (link (freeChild c s₁).2),
            c :: (freeChild c s₁).2) := free_good hgc hnot
      rw [if_neg (by simp [hpres]), if_neg (by simp [hl]), if_neg (by
        rintro (h0 | h0)
        · exact hgc.nonzero h0
        · exact absurd hgc.configured (by simp [h0])), hfree]
      obtain ⟨hct,-⟩ := hapart c nodes_self
      have htable : table ∉ nodes s.1 depth c := fun h => (hapart table h).1 rfl
      refine ⟨?_, fun f hf hb => ?_, fun i hi => ?_⟩
      · rw [← List.append_assoc]
        exact hfreed.trans (hperm.append_right _)
      · rw [List.mem_append, not_or] at hb
        have hfc : f ≠ c := fun h => hb.2 (h ▸ nodes_self)
        dsimp only
        rw [storeWord, update_of_ne hfc, storeWord, update_of_ne hf, hkept f hb.2, hsame f hf hb.1]
      · dsimp only
        rw [storeWord, update_of_ne hct.symm, storeWord, update_self, update_of_ne (by omega),
          hkept table htable, hlater i (by omega)]
    · rw [child_absent (by simpa using hpres), List.append_nil, if_pos (by simpa using hpres)]
      exact ⟨hperm, hsame, fun i hi => hlater i (by omega)⟩

theorem frees_tree (depth : Nat) : Frees usable depth (freeTableTree usable link depth) := by
  induction depth with
  | zero =>
    intro c s _ _ _
    exact ⟨(List.perm_append_singleton c s.2).symm, fun _ _ => rfl⟩
  | succ depth ih =>
    intro c s hn hp hg
    rw [nodes_succ] at hn hg ⊢
    rw [freeTableTree]
    obtain ⟨hperm,hsame,-⟩ := freeEntries_spec ih hn hp fun f hf => hg f (List.mem_cons_of_mem _ hf)
    refine ⟨(hperm.cons c).trans List.perm_middle.symm, fun f hf => ?_⟩
    rw [List.mem_cons, not_or] at hf
    exact hsame f hf.1 hf.2

theorem removed_perm (link : List Nat → Nat) (hp : Plain s.1 256 3 root)
    (hn : (s.2 ++ root :: below s.1 256 2 root).Nodup)
    (hg : ∀ f ∈ root :: below s.1 256 2 root, Good usable f) :
    (free usable link (freePrivatePageTables usable link root s) root).2.Perm
      (s.2 ++ root :: below s.1 256 2 root) := by
  obtain ⟨hroot,hbelow⟩ := List.forall_mem_cons.mp hg
  have hperm : (freePrivatePageTables usable link root s).2.Perm (s.2 ++ below s.1 256 2 root) :=
    (freeEntries_spec (frees_tree 2) hn hp hbelow).1
  have hback : (root :: (freePrivatePageTables usable link root s).2).Perm
      (s.2 ++ root :: below s.1 256 2 root) := (hperm.cons root).trans List.perm_middle.symm
  rw [free_good hroot (List.nodup_cons.mp (hback.nodup_iff.mpr hn)).1]
  exact hback

/-- With no page left, the removal of the tables and of the root gives all frames back. -/
theorem Tree.removed (link : List Nat → Nat) (h : Tree root stock₀ s) (hnodup : stock₀.Nodup)
    (hgood : ∀ f ∈ stock₀, Good usable f)
    (hnone : ∀ vpn < 2^35, findPte s.1 3 root vpn = none) :
    (free usable link (freePrivatePageTables usable link root s) root).2.Perm stock₀ := by
  obtain ⟨hframes,hplain⟩ := h
  have hempty (vpn : Nat) (hv : tableIndex vpn 3 < 256) : findPte s.1 3 root vpn = none := by
    have hlow : vpn % 512^(3+1) < 2^35 := by
      rw [tableIndex_eq] at hv
      omega
    rw [← hnone _ hlow]
    exact findPte_low (Nat.mod_mod ..).symm
  rw [below_unmapped hplain (by decide) hempty] at hframes
  refine (removed_perm link hplain (hframes.nodup_iff.mpr hnodup) fun f hf => ?_).trans hframes
  exact hgood f (hframes.mem_iff.mp (List.mem_append_right _ hf))

end NetKernel.Teardown
