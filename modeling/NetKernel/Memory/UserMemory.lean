import NetKernel.Memory.ProgramBreak
import NetKernel.Memory.SharedFaults

/-! The bytes of a user's address space: stores through the page tables, and pages that
`map_range` puts in place. -/
namespace NetKernel.UserMemory
open Function PageTables Ownership
open Teardown hiding State
open AddressSpaces (mapPage mapRange)
open Frames (Ram zeroFrame)
open Heaps (wrap)
open ProgramBreak
open SharedMappings (pageByte)

/-- A word with its byte `k` replaced. -/
def setDigit (word k x : Nat) : Nat := word % 256^k+256^k*(x+256*(word / 256^(k+1)))

def setByte (content : Nat → Nat) (j x : Nat) : Nat → Nat :=
  update content (j / 8) (setDigit (content (j / 8)) (j % 8) x)

/-- The kernel's store of a byte at an address; `none` is a page fault. -/
def storeByte (root : Nat) (ram : Ram) (va : Nat) (x : UInt8) : Option Ram :=
  match walk ram 3 root (va >>> 12) with
  | none => none
  | some leaf =>
    if leaf.write then
      some (update ram leaf.frame (setByte (ram leaf.frame) (va % 4096) x.toNat))
    else none

def storeBytes (root : Nat) : Ram → Nat → List UInt8 → Option Ram
  | ram, _, [] => some ram
  | ram, va, x :: xs =>
    (storeByte root ram va x).bind fun ram => storeBytes root ram (wrap (va+1)) xs

def userByte (root : Nat) (ram : Ram) (va : Nat) : Option Nat :=
  (walk ram 3 root (va >>> 12)).map fun leaf => pageByte (ram leaf.frame) (va % 4096)

/-! Bytes of a frame. -/

theorem digit_setDigit {word k x i : Nat} (hx : x < 256) :
    setDigit word k x / 256^i % 256 = if i = k then x else word / 256^i % 256 := by
  have hpos (n : Nat) : 0 < 256^n := Nat.pow_pos (by decide)
  have hlow : word % 256^k < 256^k := Nat.mod_lt _ (hpos k)
  obtain hlt | rfl | hgt := Nat.lt_trichotomy i k
  · obtain ⟨d,rfl⟩ := Nat.exists_eq_add_of_lt hlt
    have hpow : 256^(i+d+1) = 256^i*(256*256^d) := by
      rw [Nat.add_assoc, Nat.pow_add, Nat.pow_succ']
    rw [if_neg (Nat.ne_of_lt hlt), setDigit, hpow, Nat.mul_assoc, Nat.add_mul_div_left _ _ (hpos i),
      Nat.mod_mul_right_div_self, Nat.mul_assoc, Nat.add_mul_mod_self_left,
      Nat.mod_mul_right_mod]
  · rw [if_pos rfl, setDigit, Nat.add_mul_div_left _ _ (hpos i), Nat.div_eq_of_lt hlow, Nat.zero_add,
      Nat.add_mul_mod_self_left, Nat.mod_eq_of_lt hx]
  · obtain ⟨d,rfl⟩ := Nat.exists_eq_add_of_lt hgt
    have hpow : 256^(k+d+1) = 256^k*(256*256^d) := by
      rw [Nat.add_assoc, Nat.pow_add, Nat.pow_succ']
    have hpow' : 256^k*(256*256^d) = 256^(k+1)*256^d := by
      rw [Nat.pow_succ, Nat.mul_assoc]
    rw [if_neg (Nat.ne_of_gt hgt), setDigit, hpow, ← Nat.div_div_eq_div_mul,
      Nat.add_mul_div_left _ _ (hpos k), Nat.div_eq_of_lt hlow, Nat.zero_add,
      ← Nat.div_div_eq_div_mul, Nat.add_mul_div_left _ _ (by decide), Nat.div_eq_of_lt hx,
      Nat.zero_add, hpow', ← Nat.div_div_eq_div_mul word]

theorem pageByte_setByte {content : Nat → Nat} {i j x : Nat} (hx : x < 256) :
    pageByte (setByte content j x) i = if i = j then x else pageByte content i := by
  by_cases hw : i / 8 = j / 8
  · rw [pageByte, setByte, hw, update_self, digit_setDigit hx, pageByte, hw]
    refine if_congr ⟨fun h => ?_, fun h => h ▸ rfl⟩ rfl rfl
    rw [← Nat.div_add_mod i 8, ← Nat.div_add_mod j 8, hw, h]
  · rw [pageByte, setByte, update_of_ne hw, if_neg fun h => hw (congrArg (· / 8) h), pageByte]

/-! The frames of tables, as a list and as a tree. -/

section Tables
variable {ram ram' : Ram} {n level table f : Nat}

theorem open_inTree (h : Open ram level table) (hf : f ∈ nodes ram level table) :
    InTree ram level table f := by
  induction level generalizing table with
  | zero => exact List.mem_singleton.mp hf
  | succ level ih =>
    rw [nodes_succ] at hf
    obtain rfl | hf := List.mem_cons.mp hf
    · exact Or.inl rfl
    · obtain ⟨i,hi,hf⟩ := List.mem_flatMap.mp hf
      have hi := List.mem_range.mp hi
      by_cases hp : present (ram table i) = true
      · obtain ⟨hl,-,-,hchild⟩ := h i hi hp
        rw [child_present hp] at hf
        exact Or.inr ⟨i, hi, ⟨hp, hl⟩, ih hchild hf⟩
      · rw [child_absent (Bool.eq_false_iff.mpr hp)] at hf
        cases hf

theorem openNode_inNode (h : OpenNode ram n level table)
    (hf : f ∈ table :: below ram n level table) : InNode ram n level table f := by
  obtain rfl | hf := List.mem_cons.mp hf
  · exact Or.inl rfl
  · obtain ⟨i,hi,hf⟩ := List.mem_flatMap.mp hf
    have hi := List.mem_range.mp hi
    by_cases hp : present (ram table i) = true
    · obtain ⟨hl,-,-,hchild⟩ := h i hi hp
      rw [child_present hp] at hf
      exact Or.inr ⟨i, hi, ⟨hp, hl⟩, open_inTree hchild hf⟩
    · rw [child_absent (Bool.eq_false_iff.mpr hp)] at hf
      cases hf

end Tables

/-- The pages of a user: writable, each in a frame of its own, which is neither a table nor
to come. -/
structure UserSpace (root : Nat) (s : State) : Prop where
  intact : Intact root s
  write : ∀ vpn < 2^35, ∀ leaf, walk s.1 3 root vpn = some leaf → leaf.write = true
  apart : ∀ vpn < 2^35, ∀ vpn' < 2^35, vpn ≠ vpn' → ∀ leaf leaf',
    walk s.1 3 root vpn = some leaf → walk s.1 3 root vpn' = some leaf' → leaf.frame ≠ leaf'.frame

variable {root va a : Nat} {s s' : State} {ram ram' : Ram} {stock : List Nat} {x : UInt8}
  {xs : List UInt8} {leaf : Leaf}

theorem page_low (h : a < 2^47) : a >>> 12 < 2^35 := by
  rw [Nat.shiftRight_eq_div_pow]
  omega

theorem UserSpace.walk_store {content : Nat → Nat} {vpn vpn' : Nat}
    (h : UserSpace root (ram, stock)) (hv : vpn < 2^35) (hw : walk ram 3 root vpn = some leaf)
    (hv' : vpn' < 2^35) :
    walk (update ram leaf.frame content) 3 root vpn' = walk ram 3 root vpn' := by
  obtain ⟨-,hin⟩ := h.intact.pages vpn hv leaf hw
  refine walk_congr_node (fun f hf => ?_) h.intact.wellNode (index_low hv')
  have hne : f ≠ leaf.frame := fun he => hin (he ▸ hf)
  exact update_of_ne hne ..

theorem UserSpace.store {content : Nat → Nat} {vpn : Nat} (h : UserSpace root (ram, stock))
    (hv : vpn < 2^35) (hw : walk ram 3 root vpn = some leaf) :
    UserSpace root (update ram leaf.frame content, stock) := by
  obtain ⟨-,hin⟩ := h.intact.pages vpn hv leaf hw
  have hsame (f : Nat) (hf : InNode ram 256 2 root f) :
      update ram leaf.frame content f = ram f := by
    have hne : f ≠ leaf.frame := fun he => hin (he ▸ hf)
    exact update_of_ne hne ..
  have htables : ∀ f ∈ root :: below ram 256 2 root, update ram leaf.frame content f = ram f :=
    fun f hf => hsame f (openNode_inNode h.intact.openNode hf)
  have hbelow : below (update ram leaf.frame content) 256 3 root = below ram 256 3 root :=
    below_congr_tables htables
  have hwalk {vpn' : Nat} (hv' : vpn' < 2^35) :
      walk (update ram leaf.frame content) 3 root vpn' = walk ram 3 root vpn' :=
    h.walk_store hv hw hv'
  refine ⟨⟨?_, ?_, h.intact.wellNode.congr hsame, h.intact.openNode.congr hsame,
    fun vpn' hv' leaf' hw' => ?_⟩, fun vpn' hv' leaf' hw' => ?_,
    fun vpn₁ hv₁ vpn₂ hv₂ hne leaf₁ leaf₂ hw₁ hw₂ => ?_⟩
  · rw [hbelow]
    exact h.intact.nodup
  · rw [hbelow]
    exact h.intact.small
  · obtain ⟨hout,hnot⟩ := h.intact.pages vpn' hv' leaf' ((hwalk hv').symm.trans hw')
    exact ⟨hout, fun hn => hnot ((inNode_congr hsame).mp hn)⟩
  · exact h.write vpn' hv' leaf' ((hwalk hv').symm.trans hw')
  · exact h.apart vpn₁ hv₁ vpn₂ hv₂ hne leaf₁ leaf₂ ((hwalk hv₁).symm.trans hw₁)
      ((hwalk hv₂).symm.trans hw₂)

theorem UserSpace.storeByte (h : UserSpace root (ram, stock)) (hva : va < 2^47)
    (hs : storeByte root ram va x = some ram') : UserSpace root (ram', stock) ∧
      ∀ a < 2^47, userByte root ram' a = if a = va then some x.toNat else userByte root ram a := by
  have hv := page_low hva
  unfold UserMemory.storeByte at hs
  split at hs
  · cases hs
  rename_i leaf hw
  split at hs
  · cases hs
    refine ⟨h.store hv hw, fun a ha => ?_⟩
    have hva' := page_low ha
    rw [userByte, h.walk_store hv hw hva', userByte]
    by_cases hpage : a >>> 12 = va >>> 12
    · rw [hpage, hw, Option.map_some, Option.map_some, update_self, pageByte_setByte x.toNat_lt]
      have hiff : a % 4096 = va % 4096 ↔ a = va := by
        rw [Nat.shiftRight_eq_div_pow, Nat.shiftRight_eq_div_pow] at hpage
        omega
      simp only [hiff]
      split <;> rfl
    · have hne : a ≠ va := fun he => hpage (he ▸ rfl)
      rw [if_neg hne]
      cases hw' : walk ram 3 root (a >>> 12) with
      | none => rfl
      | some leaf' =>
        have hframe := h.apart _ hva' _ hv hpage leaf' leaf hw' hw
        rw [Option.map_some, Option.map_some, update_of_ne hframe]
  · cases hs

theorem UserSpace.storeByte_isSome (h : UserSpace root (ram, stock)) (hva : va < 2^47)
    (hw : (walk ram 3 root (va >>> 12)).isSome) (x : UInt8) :
    ∃ ram', UserMemory.storeByte root ram va x = some ram' := by
  obtain ⟨leaf,hw⟩ := Option.isSome_iff_exists.mp hw
  have hwrite := h.write _ (page_low hva) leaf hw
  simp only [UserMemory.storeByte, hw, hwrite, if_true]
  exact ⟨_, rfl⟩

theorem UserSpace.storeBytes (h : UserSpace root (ram, stock)) (hva : va+xs.length ≤ 2^47)
    (hs : storeBytes root ram va xs = some ram') : UserSpace root (ram', stock) ∧
      ∀ a < 2^47, userByte root ram' a =
        if va ≤ a ∧ a < va+xs.length then some (xs[a-va]?.getD 0).toNat
        else userByte root ram a := by
  induction xs generalizing ram va with
  | nil =>
    cases hs
    refine ⟨h, fun a _ => ?_⟩
    rw [if_neg (by rw [List.length_nil]; omega)]
  | cons y ys ih =>
    rw [List.length_cons] at hva ⊢
    obtain ⟨ram₁,hs₁,hs⟩ := Option.bind_eq_some_iff.mp hs
    have hwrap : wrap (va+1) = va+1 := Nat.mod_eq_of_lt (by omega)
    rw [hwrap] at hs
    obtain ⟨h₁,hbyte⟩ := h.storeByte (by omega) hs₁
    obtain ⟨h',hbytes⟩ := ih h₁ (by omega) hs
    refine ⟨h', fun a ha => ?_⟩
    rw [hbytes a ha, hbyte a ha]
    obtain hlt | rfl | hgt := Nat.lt_trichotomy a va
    · rw [if_neg (by omega), if_neg (by omega), if_neg (by omega)]
    · rw [if_neg (by omega), if_pos rfl, if_pos (by omega), Nat.sub_self]
      rfl
    · have hsub : a-va = (a-(va+1))+1 := by omega
      have hne : ¬ a = va := by omega
      rw [if_neg hne, hsub, List.getElem?_cons_succ]
      exact if_congr (by omega) rfl rfl

theorem UserSpace.storeBytes_isSome (h : UserSpace root (ram, stock)) (hva : va+xs.length ≤ 2^47)
    (hmapped : ∀ a, va ≤ a → a < va+xs.length → (userByte root ram a).isSome) :
    ∃ ram', UserMemory.storeBytes root ram va xs = some ram' := by
  induction xs generalizing ram va with
  | nil => exact ⟨ram, rfl⟩
  | cons y ys ih =>
    rw [List.length_cons] at hva hmapped
    have hpage := hmapped va (Nat.le_refl _) (by omega)
    rw [userByte, Option.isSome_map] at hpage
    obtain ⟨ram₁,hs₁⟩ := h.storeByte_isSome (by omega) hpage y
    obtain ⟨h₁,hbyte⟩ := h.storeByte (by omega) hs₁
    have hwrap : wrap (va+1) = va+1 := Nat.mod_eq_of_lt (by omega)
    have hrest : ∃ ram', UserMemory.storeBytes root ram₁ (va+1) ys = some ram' := by
      refine ih h₁ (by omega) fun a hge hlt => ?_
      have hne : ¬ a = va := by omega
      rw [hbyte a (by omega), if_neg hne]
      exact hmapped a (by omega) (by omega)
    obtain ⟨ram',hs⟩ := hrest
    refine ⟨ram', ?_⟩
    rw [UserMemory.storeBytes, hs₁, Option.bind_some, hwrap]
    exact hs

/-! New pages. -/

theorem UserSpace.mapPage_fresh (h : UserSpace root s) (hv : va >>> 12 < 2^35)
    (hs : mapPage root true true s va = some s') :
    ∃ f ∈ s.2, walk s'.1 3 root (va >>> 12) = some ⟨f, true, true⟩ ∧ s'.1 f = fun _ => 0 := by
  obtain ⟨ram,stock⟩ := s
  obtain ⟨ram',stock'⟩ := s'
  unfold AddressSpaces.mapPage at hs
  split at hs
  · cases stock with
    | nil => cases hs
    | cons f pool =>
      have hm : map (zeroFrame ram f) pool root 3 (va >>> 12) f true true =
        some (ram', stock') := hs
      obtain ⟨_,-,hstored,hzero⟩ := map_stored h.intact.wellNode h.intact.stock (index_low hv)
        (fun g hg => update_of_ne hg _ _) hm
      exact ⟨f, List.mem_cons_self, (hstored.plain h.intact.openNode).2,
        hzero.trans (update_self ..)⟩
  · cases hs

theorem UserSpace.mapPage (h : UserSpace root s) (hv : va >>> 12 < 2^35)
    (hs : mapPage root true true s va = some s') : UserSpace root s' ∧
      ∀ a < 2^47, userByte root s'.1 a =
        if a >>> 12 = va >>> 12 then some 0 else userByte root s.1 a := by
  obtain ⟨hintact,hplaced⟩ := h.intact.mapPage hv hs
  have hfreshFrame := h.mapPage_fresh hv hs
  obtain ⟨ram,stock⟩ := s
  obtain ⟨ram',stock'⟩ := s'
  obtain ⟨f,hf,hwalk,hzero⟩ : ∃ f ∈ stock, walk ram' 3 root (va >>> 12) = some ⟨f, true, true⟩ ∧
    ram' f = fun _ => 0 := hfreshFrame
  have hothers (vpn : Nat) (hvpn : vpn < 2^35) (hne : vpn ≠ va >>> 12) :
      walk ram' 3 root vpn = walk ram 3 root vpn :=
    hplaced.others vpn hvpn fun hm => hne (List.mem_singleton.mp hm)
  have hfresh {vpn : Nat} (hvpn : vpn < 2^35) (hne : vpn ≠ va >>> 12) {leaf : Leaf}
      (hw : walk ram' 3 root vpn = some leaf) : leaf.frame ≠ f := by
    obtain ⟨hout,-⟩ := h.intact.pages vpn hvpn leaf ((hothers vpn hvpn hne).symm.trans hw)
    exact fun he => hout (he ▸ hf)
  have hself {vpn : Nat} (hpage : vpn = va >>> 12) {leaf : Leaf}
      (hw : walk ram' 3 root vpn = some leaf) : leaf = ⟨f, true, true⟩ := by
    rw [hpage] at hw
    exact Option.some.inj (hw.symm.trans hwalk)
  refine ⟨⟨hintact, fun vpn hvpn leaf hw => ?_, fun vpn₁ hv₁ vpn₂ hv₂ hne leaf₁ leaf₂ hw₁ hw₂ => ?_⟩,
    fun a ha => ?_⟩
  · by_cases hpage : vpn = va >>> 12
    · rw [hself hpage hw]
    · exact h.write vpn hvpn leaf ((hothers vpn hvpn hpage).symm.trans hw)
  · by_cases h₁ : vpn₁ = va >>> 12
    · rw [hself h₁ hw₁]
      exact (hfresh hv₂ (fun he => hne (h₁.trans he.symm)) hw₂).symm
    by_cases h₂ : vpn₂ = va >>> 12
    · rw [hself h₂ hw₂]
      exact hfresh hv₁ h₁ hw₁
    · exact h.apart vpn₁ hv₁ vpn₂ hv₂ hne leaf₁ leaf₂ ((hothers vpn₁ hv₁ h₁).symm.trans hw₁)
        ((hothers vpn₂ hv₂ h₂).symm.trans hw₂)
  · rw [userByte, userByte]
    by_cases hpage : a >>> 12 = va >>> 12
    · rw [if_pos hpage, hpage, hwalk, Option.map_some]
      change some (pageByte (ram' f) (a % 4096)) = some 0
      rw [hzero, pageByte, Nat.zero_div]
    · rw [if_neg hpage, hothers _ (page_low ha) hpage]
      cases hw : walk ram 3 root (a >>> 12) with
      | none => rfl
      | some leaf =>
        obtain ⟨hout,hin⟩ := h.intact.pages _ (page_low ha) leaf hw
        have hsame : ram' leaf.frame = ram leaf.frame := hplaced.same _ hin hout
        exact congrArg (fun content => some (pageByte content (a % 4096))) hsame

theorem UserSpace.mapPages {pages : List Nat} (h : UserSpace root s)
    (hv : ∀ va ∈ pages, va >>> 12 < 2^35)
    (hs : pages.foldlM (AddressSpaces.mapPage root true true) s = some s') : UserSpace root s' ∧
      ∀ a < 2^47, userByte root s'.1 a =
        if a >>> 12 ∈ pages.map (· >>> 12) then some 0 else userByte root s.1 a := by
  induction pages generalizing s with
  | nil =>
    cases hs
    exact ⟨h, fun a _ => rfl⟩
  | cons va pages ih =>
    rw [List.foldlM_cons] at hs
    obtain ⟨s₁,hs₁,hs⟩ := Option.bind_eq_some_iff.mp hs
    obtain ⟨h₁,hbyte⟩ := h.mapPage (hv va List.mem_cons_self) hs₁
    obtain ⟨h',hbytes⟩ := ih h₁ (fun va' hm => hv va' (List.mem_cons_of_mem _ hm)) hs
    refine ⟨h', fun a ha => ?_⟩
    rw [hbytes a ha, hbyte a ha, List.map_cons]
    by_cases hrest : a >>> 12 ∈ pages.map (· >>> 12)
    · rw [if_pos hrest, if_pos (List.mem_cons_of_mem _ hrest)]
    · rw [if_neg hrest]
      exact if_congr (by rw [List.mem_cons, or_iff_left hrest]) rfl rfl

def InPages (start length a : Nat) : Prop :=
  length ≠ 0 ∧ alignDown start ≤ a ∧ a < alignUp (start+length)

instance (start length a : Nat) : Decidable (InPages start length a) :=
  inferInstanceAs (Decidable (_ ∧ _))

theorem inPages_of_mem {start length a : Nat} (hb : start+length ≤ 2^47) (hge : start ≤ a)
    (hlt : a < start+length) : InPages start length a := by
  unfold InPages alignDown alignUp
  omega

theorem mapUserRange_bounds {start length : Nat} (hb : start+length ≤ 2^47) :
    alignDown start % 4096 = 0 ∧ alignUp (start+length) ≤ 2^47 ∧
      alignDown start+(alignUp (start+length)-alignDown start) = alignUp (start+length) ∧
      (alignUp (start+length)-alignDown start) % 4096 = 0 ∧
      wrap (alignUp (start+length)+2^64-alignDown start) =
        alignUp (start+length)-alignDown start := by
  unfold alignDown alignUp wrap
  omega

theorem UserSpace.mapUserRange {start length : Nat} (h : UserSpace root s)
    (hb : start+length ≤ 2^47) (hs : mapUserRange root start length s = some s') :
    UserSpace root s' ∧ ∀ a < 2^47, userByte root s'.1 a =
      if InPages start length a then some 0 else userByte root s.1 a := by
  unfold ProgramBreak.mapUserRange at hs
  split at hs
  · rename_i hzero
    cases hs
    exact ⟨h, fun a _ => (if_neg fun hin => hin.1 hzero).symm⟩
  rename_i hne
  obtain ⟨hdown,hup,hsum,hmod,hlen⟩ := mapUserRange_bounds hb
  simp only [hlen, AddressSpaces.mapRange] at hs
  have hmem (vpn : Nat) : vpn ∈ pageNumbers (alignDown start)
      (alignUp (start+length)-alignDown start) ↔ _ := mem_pageNumbers hdown hmod (by omega)
  split at hs
  · have hlow (va : Nat) (hm : va ∈ (Vmes.pagesOf 0 (alignUp (start+length)-alignDown start)).map
        fun i => wrap (alignDown start+i)) : va >>> 12 < 2^35 := by
      have hin := (hmem (va >>> 12)).mp (List.mem_map_of_mem hm)
      omega
    obtain ⟨h',hbytes⟩ := h.mapPages hlow hs
    refine ⟨h', fun a ha => (hbytes a ha).trans (if_congr ((hmem (a >>> 12)).trans ?_) rfl rfl)⟩
    have hmod' : alignUp (start+length) % 4096 = 0 := Nat.mul_mod_left ..
    rw [InPages, Nat.shiftRight_eq_div_pow]
    omega
  · cases hs

theorem mapUserRange_isSome {start length : Nat} (root : Nat) (s : State)
    (hb : start+length ≤ userStackTop)
    (hlen : (alignUp (start+length)-alignDown start)/1024 ≤ s.2.length) :
    ∃ s', ProgramBreak.mapUserRange root start length s = some s' ∧
      s.2.length ≤ s'.2.length+(alignUp (start+length)-alignDown start)/1024 := by
  by_cases hzero : length = 0
  · exact ⟨s, if_pos hzero, Nat.le_add_right _ _⟩
  have htop : userStackTop+4096 ≤ 2^47 := by decide
  have hlow : start+length ≤ 2^47 := by omega
  obtain ⟨-,-,hsum,hmod,hwrap⟩ := mapUserRange_bounds hlow
  have hup := alignUp_le (start+length) (by omega)
  obtain ⟨s',hs,hleft⟩ := mapRange_isSome root (alignDown start)
    (alignUp (start+length)-alignDown start) s hmod (by omega) hlen
  refine ⟨s', ?_, hleft⟩
  rw [ProgramBreak.mapUserRange, if_neg hzero]
  simp only [hwrap]
  exact hs

theorem userSpace_initThread {ν : Type*} {common : Nat} {maps : Vmes.Mappings ν}
    {space : AddressSpaces.Space ν} (hn : stock.Nodup) (hsmall : ∀ f ∈ stock, f < 2^36)
    (hs : AddressSpaces.initThread common ram stock maps = some space) :
    UserSpace space.root (space.ram, space.stock) := by
  cases stock with
  | nil => cases hs
  | cons root pool =>
    cases hs
    have habsent (i : Nat) (hi : i < 256) : present (update (zeroFrame ram root) root
        (fun i => if 256 ≤ i ∧ i < 512 then zeroFrame ram root common i
          else zeroFrame ram root root i) root i) = false := by
      rw [update_self, if_neg (by omega), zeroFrame, update_self]
      exact present_zero
    obtain ⟨hintact,hnone⟩ := intact_empty hn hsmall habsent
    refine ⟨hintact, fun vpn hv leaf hw => ?_, fun vpn hv vpn' _ _ leaf _ hw _ => ?_⟩
    · exact absurd ((hnone vpn hv).symm.trans hw) (by simp)
    · exact absurd ((hnone vpn hv).symm.trans hw) (by simp)

end NetKernel.UserMemory
