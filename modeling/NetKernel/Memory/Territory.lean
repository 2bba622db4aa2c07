import NetKernel.Memory.Teardown

/-! Whose the frames are when threads share the upper half of their address spaces: the tables
under the common root, those of each thread, and the frames that `physMem.alloc` is going to
return. What `map`, the start and the end of a thread make of them. -/
namespace NetKernel.Territories
open Function PageTables Ownership Teardown
open Frames (Ram storeWord zeroFrame)

variable {ram ram' ram₁ : Ram} {n level table f vpn vpn' i k ppn : Nat} {pool pool' : List Nat}
  {u w : Bool}

/-! What `map` keeps of other pages. -/

theorem findPte_tree_congr (h : ∀ f, InTree ram level table f → ram' f = ram f) :
    findPte ram' level table vpn = findPte ram level table vpn := by
  induction level generalizing table with
  | zero => simp only [findPte, h table (InTree.self ..)]
  | succ level ih =>
    simp only [findPte, h table (InTree.self ..)]
    split
    · rfl
    split
    · rfl
    · rename_i hp hl
      have ht : IsTable (level+1) (ram table (tableIndex vpn (level+1))) :=
        ⟨by simpa using hp, by simpa using hl⟩
      exact ih fun g hg => h g (InNode.child tableIndex_lt ht hg)

theorem findPte_table {e : Nat × Nat} (h : findPte ram (level+1) table vpn = some e) :
    IsTable (level+1) (ram table (tableIndex vpn (level+1))) ∧
      findPte ram level (entryPpn (ram table (tableIndex vpn (level+1)))) vpn = some e := by
  simp only [findPte] at h
  split at h
  · cases h
  split at h
  · cases h
  · rename_i hp hl
    exact ⟨⟨by simpa using hp, by simpa using hl⟩, h⟩

theorem findPte_below (ht : IsTable (level+1) (ram table (tableIndex vpn (level+1)))) :
    findPte ram (level+1) table vpn =
      findPte ram level (entryPpn (ram table (tableIndex vpn (level+1)))) vpn := by
  simp [findPte, ht.1, ht.2]

theorem openEntry_table (ht : IsTable level (ram table k)) :
    openEntry ram pool table k level = some (ram, pool) := by
  rw [openEntry, if_pos ht.1, if_neg (by simp [ht.2])]

theorem opened_kept {c : Nat} {taken : List Nat} (hw : WellFormed ram (level+1) table)
    (ho : Opened ram ram₁ pool pool' 512 level table k c taken)
    (hs : ∀ f, f ≠ table → ¬InTree ram₁ level c f → f ∉ pool' → ram' f = ram₁ f)
    (hpool : ∀ f ∈ pool, ¬InTree ram (level+1) table f)
    (hi : i < 512) (hik : i ≠ k) (ht : IsTable (level+1) (ram table i)) :
    ∀ f, InTree ram level (entryPpn (ram table i)) f → ram' f = ram f := by
  intro f hf
  obtain ⟨hsame,hout⟩ := ho.grafted.kept i hi hik ht f hf
  obtain ⟨-,-,hnot,-⟩ := (hw i hi).2 ht
  have hne : f ≠ table := fun h => hnot (h ▸ hf)
  have hfresh : f ∉ pool' := fun h =>
    hpool f (ho.pool ▸ List.mem_append_right _ h) (InNode.child hi ht hf)
  rw [hs f hne hout hfresh, hsame]

theorem map_entry_kept (hw : WellFormed ram (level+1) table)
    (hs : Stock (InTree ram (level+1) table) pool)
    (hm : map ram pool table (level+1) vpn ppn u w = some (ram', pool'))
    (ht : IsTable (level+1) (ram table i)) : ram' table i = ram table i := by
  simp only [map] at hm
  split at hm
  · cases hm
  · rename_i ram₁ pool₁ ho
    obtain ⟨c,taken,hop⟩ := openEntry_opened (wellFormed_succ.mp hw) tableIndex_lt hs ho
    rw [hop.grafted.ppn] at hm
    obtain ⟨taken',hpool,hmap⟩ := map_mapped hop.grafted.child (stock_opened hs hop) hm
    have hnot : table ∉ taken' := fun hf => hs.outside table
      (hop.pool ▸ List.mem_append_right _ (hpool ▸ List.mem_append_left _ hf)) (InTree.self ..)
    rw [hmap.same table hop.grafted.acyclic hnot]
    by_cases hik : i = tableIndex vpn (level+1)
    · subst hik
      rw [openEntry_table ht] at ho
      cases ho
      rfl
    · exact hop.grafted.others i hik

theorem map_findPte_kept {e : Nat × Nat} (hw : WellFormed ram level table)
    (hs : Stock (InTree ram level table) pool)
    (hm : map ram pool table level vpn ppn u w = some (ram', pool'))
    (hne : vpn' % 512^(level+1) ≠ vpn % 512^(level+1))
    (hf : findPte ram level table vpn' = some e) :
    findPte ram' level table vpn' = some e ∧ ram' e.1 e.2 = ram e.1 e.2 := by
  induction level generalizing ram pool table with
  | zero =>
    cases hm
    have hidx : tableIndex vpn' 0 ≠ tableIndex vpn 0 := by
      rw [tableIndex_eq, tableIndex_eq]
      omega
    simp only [findPte, storeWord, update_self, update_of_ne hidx] at hf ⊢
    refine ⟨hf, ?_⟩
    split at hf
    · cases hf
      simp only [update_self, update_of_ne hidx]
    · cases hf
  | succ level ih =>
    obtain ⟨ht,hleaf⟩ := findPte_table hf
    have hentry := map_entry_kept hw hs hm ht
    rw [findPte_below (by rw [hentry]; exact ht), hentry]
    simp only [map] at hm
    split at hm
    · cases hm
    · rename_i ram₁ pool₁ ho
      obtain ⟨c,taken,hop⟩ := openEntry_opened (wellFormed_succ.mp hw) tableIndex_lt hs ho
      rw [hop.grafted.ppn] at hm
      by_cases hk : tableIndex vpn' (level+1) = tableIndex vpn (level+1)
      · rw [hk] at ht hleaf ⊢
        rw [openEntry_table ht] at ho
        cases ho
        have hlow : vpn' % 512^(level+1) ≠ vpn % 512^(level+1) := by
          intro heq
          rw [tableIndex_eq, tableIndex_eq] at hk
          rw [Nat.pow_succ 512 (level+1), Nat.mod_mul, Nat.mod_mul, hk, heq] at hne
          exact hne rfl
        rw [hop.grafted.ppn] at hleaf ⊢
        exact ih hop.grafted.child (stock_opened hs hop) hm hlow hleaf
      · obtain ⟨taken',hpool,hmap⟩ := map_mapped hop.grafted.child (stock_opened hs hop) hm
        have hsame := opened_kept hw hop
          (fun f _ hout hfresh => hmap.same f hout fun h => hfresh (hpool ▸ List.mem_append_left _ h))
          hs.outside tableIndex_lt hk ht
        refine ⟨(findPte_tree_congr hsame).trans hleaf, ?_⟩
        rw [hsame e.1 (findPte_inTree (show _ = some (e.1, e.2) from hleaf))]

theorem map_below (ht : IsTable (level+1) (ram table (tableIndex vpn (level+1)))) :
    map ram pool table (level+1) vpn ppn u w =
      map ram pool (entryPpn (ram table (tableIndex vpn (level+1)))) level vpn ppn u w := by
  simp only [map, openEntry_table ht]

theorem map_absent (hp : present (ram table (tableIndex vpn (level+1))) = false) :
    map ram (f :: pool) table (level+1) vpn ppn u w =
      map (storeWord (zeroFrame ram f) table (tableIndex vpn (level+1)) (makeEntry f true true)) pool
        table (level+1) vpn ppn u w := by
  have hself : storeWord (zeroFrame ram f) table (tableIndex vpn (level+1)) (makeEntry f true true)
      table (tableIndex vpn (level+1)) = makeEntry f true true := by
    rw [storeWord, update_self, update_self]
  have ht : IsTable (level+1) (storeWord (zeroFrame ram f) table (tableIndex vpn (level+1))
      (makeEntry f true true) table (tableIndex vpn (level+1))) := by
    rw [hself]
    exact isTable_makeEntry
  rw [map_below ht]
  simp only [map, openEntry, hp, Bool.false_eq_true, if_false, alloc]

/-! The tables of a tree, listed. -/

theorem mem_nodes (hp : Plain ram 512 level table) (hf : f ∈ nodes ram level table) :
    InTree ram level table f := by
  induction level generalizing table with
  | zero => exact List.mem_singleton.mp hf
  | succ level ih =>
    rw [nodes_succ] at hf
    obtain rfl | hf := List.mem_cons.mp hf
    · exact InTree.self ..
    · obtain ⟨i,hi,hf⟩ := List.mem_flatMap.mp hf
      have hlt := List.mem_range.mp hi
      unfold child at hf
      split at hf
      · rename_i hpres
        obtain ⟨hl,hplain⟩ := hp i hlt hpres
        exact InNode.child hlt ⟨hpres, hl⟩ (ih hplain hf)
      · cases hf

theorem nodup_below (hc : ∀ i < n, present (ram table i) = true →
      (nodes ram level (entryPpn (ram table i))).Nodup ∧
        Plain ram 512 level (entryPpn (ram table i)) ∧
        ¬InTree ram level (entryPpn (ram table i)) table)
    (hd : ∀ i < n, ∀ j < n, i ≠ j → present (ram table i) = true → present (ram table j) = true →
      ∀ f, InTree ram level (entryPpn (ram table i)) f →
        ¬InTree ram level (entryPpn (ram table j)) f) :
    (table :: below ram n level table).Nodup := by
  have hchild {i f : Nat} (hi : i < n) (hf : f ∈ child ram level table i) :
      present (ram table i) = true ∧ InTree ram level (entryPpn (ram table i)) f := by
    unfold child at hf
    split at hf
    · rename_i hpres
      exact ⟨hpres, mem_nodes (hc i hi hpres).2.1 hf⟩
    · cases hf
  refine List.nodup_cons.mpr ⟨fun hin => ?_, List.nodup_flatMap.mpr ⟨fun i hi => ?_, ?_⟩⟩
  · obtain ⟨i,hi,hf⟩ := List.mem_flatMap.mp hin
    have hlt := List.mem_range.mp hi
    obtain ⟨hpres,htree⟩ := hchild hlt hf
    exact (hc i hlt hpres).2.2 htree
  · unfold child
    split
    · rename_i hpres
      exact (hc i (List.mem_range.mp hi) hpres).1
    · exact List.nodup_nil
  · refine List.nodup_range.pairwise_of_forall_ne fun i hi j hj hij f hf hf' => ?_
    obtain ⟨hpi,hti⟩ := hchild (List.mem_range.mp hi) hf
    obtain ⟨hpj,htj⟩ := hchild (List.mem_range.mp hj) hf'
    exact hd i (List.mem_range.mp hi) j (List.mem_range.mp hj) hij hpi hpj f hti htj

theorem nodup_nodes (hw : WellFormed ram level table) (hp : Plain ram 512 level table) :
    (nodes ram level table).Nodup := by
  induction level generalizing table with
  | zero => exact List.nodup_singleton table
  | succ level ih =>
    have hentry {i : Nat} (hi : i < 512) (hpres : present (ram table i) = true) :=
      (hw i hi).2 ⟨hpres, (hp i hi hpres).1⟩
    refine nodup_below (fun i hi hpres => ?_) fun i hi j hj hij hpi hpj f hf => ?_
    · obtain ⟨-,hchild,hnot,-⟩ := hentry hi hpres
      exact ⟨ih hchild (hp i hi hpres).2, (hp i hi hpres).2, hnot⟩
    · obtain ⟨-,-,-,hapart⟩ := hentry hi hpi
      exact hapart j hj hij.symm ⟨hpj, (hp j hj hpj).1⟩ f hf

/-! The owner of a frame. -/

/-- `held` is a frame that a fault has allocated and not mapped yet, and `page` a frame that is
mapped for the page number; `slot t k` are the tables that thread `t` has for itself below the
entry `k` of its root. -/
inductive Owner where
  | other
  | common
  | stock
  | root (t : Nat)
  | slot (t k : Nat)
  | held (t : Nat)
  | page (vpn : Nat)
deriving DecidableEq

def Owner.isTable : Owner → Bool
  | .common | .root _ | .slot .. => true
  | _ => false

/-- The frames that are from `physMem`. -/
def Owner.managed : Owner → Bool
  | .other | .common => false
  | _ => true

def assign (own : Nat → Owner) (taken : List Nat) (x : Owner) : Nat → Owner :=
  fun f => if f ∈ taken then x else own f

/-- What an entry `k` of the root of thread `t` leads to. -/
def SlotOk (own : Nat → Owner) (ram : Ram) (common t root k : Nat) : Prop :=
  ram root k = ram common k ∧ 256 ≤ k ∨
    WellFormed ram 2 (entryPpn (ram root k)) ∧ Open ram 2 (entryPpn (ram root k)) ∧
      ∀ f, InTree ram 2 (entryPpn (ram root k)) f → own f = .slot t k

structure Layout (usable : Nat → Bool) (common : Nat) (own : Nat → Owner) (ram : Ram)
    (stock : List Nat) (root : Nat → Option Nat) : Prop where
  wellFormed : WellFormed ram 3 common
  tables : ∀ f, InTree ram 3 common f → own f = .common
  stocked : ∀ f ∈ stock, own f = .stock
  nodup : stock.Nodup
  good : ∀ f, (own f).managed = true → Good usable f
  rooted : ∀ t r, root t = some r → own r = .root t
  slots : ∀ t r, root t = some r → ∀ k < 512, present (ram r k) = true →
    SlotOk own ram common t r k

/-- What is kept below a root, but for the pages in `changed`. -/
structure Kept (ram ram' : Ram) (root : Nat) (changed : Nat → Prop) : Prop where
  walk : ∀ vpn, ¬changed (vpn % 2^36) → walk ram' 3 root vpn = walk ram 3 root vpn
  pte : ∀ vpn e, ¬changed (vpn % 2^36) → findPte ram 3 root vpn = some e →
    findPte ram' 3 root vpn = some e ∧ ram' e.1 e.2 = ram e.1 e.2
  entry : ∀ k < 512, present (ram root k) = true → ram' root k = ram root k

def Passed (own own' : Nat → Owner) (ram ram' : Ram) : Prop :=
  ∀ f, (own f).isTable = false → own f ≠ .stock → own' f = own f ∧ ram' f = ram f

variable {usable : Nat → Bool} {common t r : Nat} {own : Nat → Owner} {stock taken : List Nat}
  {root : Nat → Option Nat} {changed changed' : Nat → Prop}

theorem Kept.refl (changed : Nat → Prop) : Kept ram ram common changed :=
  ⟨fun _ _ => rfl, fun _ _ _ h => ⟨h, rfl⟩, fun _ _ _ => rfl⟩

theorem Kept.trans {ram₂ : Ram} (h : Kept ram ram₁ common changed)
    (h' : Kept ram₁ ram₂ common changed) : Kept ram ram₂ common changed := by
  refine ⟨fun v hv => (h'.walk v hv).trans (h.walk v hv), fun v e hv hf => ?_, fun k hk hp => ?_⟩
  · obtain ⟨hf₁,he₁⟩ := h.pte v e hv hf
    obtain ⟨hf₂,he₂⟩ := h'.pte v e hv hf₁
    exact ⟨hf₂, he₂.trans he₁⟩
  · have hentry := h.entry k hk hp
    rw [h'.entry k hk (hentry ▸ hp), hentry]

theorem Passed.trans {own₁ own₂ : Nat → Owner} {ram₂ : Ram} (h : Passed own own₁ ram ram₁)
    (h' : Passed own₁ own₂ ram₁ ram₂) : Passed own own₂ ram ram₂ := by
  intro f hf hs
  obtain ⟨hown,hram⟩ := h f hf hs
  obtain ⟨hown',hram'⟩ := h' f (hown ▸ hf) (hown ▸ hs)
  exact ⟨hown'.trans hown, hram'.trans hram⟩

theorem Kept.mono (h : Kept ram ram' common changed) (himp : ∀ v, changed v → changed' v) :
    Kept ram ram' common changed' :=
  ⟨fun v hv => h.walk v fun hc => hv (himp _ hc), fun v e hv => h.pte v e fun hc => hv (himp _ hc),
    h.entry⟩

theorem kept_of_tables (hw : WellFormed ram 3 common)
    (h : ∀ f, InTree ram 3 common f → ram' f = ram f) : Kept ram ram' common changed := by
  refine ⟨fun v _ => walk_congr hw h, fun v e _ hf => ?_, fun k _ _ => ?_⟩
  · rw [findPte_tree_congr h, h e.1 (findPte_inTree (show _ = some (e.1, e.2) from hf))]
    exact ⟨hf, rfl⟩
  · rw [h common (InTree.self ..)]

theorem assign_taken (h : f ∈ taken) (x : Owner) : assign own taken x f = x := if_pos h

theorem assign_other (h : f ∉ taken) (x : Owner) : assign own taken x f = own f := if_neg h

theorem SlotOk.congr {own' : Nat → Owner} (h : SlotOk own ram common t r k)
    (hr : ram' r k = ram r k) (hc : ram r k = ram common k → ram' common k = ram common k)
    (hs : ∀ f, own f = .slot t k → ram' f = ram f ∧ own' f = own f) :
    SlotOk own' ram' common t r k := by
  unfold SlotOk
  rw [hr]
  obtain ⟨heq,hk⟩ | ⟨hw,ho,hown⟩ := h
  · exact Or.inl ⟨heq.trans (hc heq).symm, hk⟩
  · have hsame (f : Nat) (hf : InTree ram 2 (entryPpn (ram r k)) f) : ram' f = ram f :=
      (hs f (hown f hf)).1
    refine Or.inr ⟨hw.congr hsame, ho.congr hsame, fun f hf => ?_⟩
    rw [inTree_congr hsame] at hf
    rw [(hs f (hown f hf)).2]
    exact hown f hf

theorem Layout.edit {own' : Nat → Owner} {stock' : List Nat}
    (h : Layout usable common own ram stock root)
    (hs : ∀ f, (own f).isTable = true → ram' f = ram f ∧ own' f = own f)
    (hstock : ∀ f ∈ stock', own' f = .stock) (hn : stock'.Nodup)
    (hg : ∀ f, (own' f).managed = true → (own f).managed = true) :
    Layout usable common own' ram' stock' root ∧ Kept ram ram' common fun _ => False := by
  have hcommon (f : Nat) (hf : InTree ram 3 common f) : ram' f = ram f ∧ own' f = own f :=
    hs f (by rw [h.tables f hf]; rfl)
  have hroot {t r : Nat} (hr : root t = some r) : ram' r = ram r ∧ own' r = own r :=
    hs r (by rw [h.rooted t r hr]; rfl)
  refine ⟨⟨h.wellFormed.congr fun f hf => (hcommon f hf).1, fun f hf => ?_, hstock, hn,
    fun f hf => h.good f (hg f hf), fun t r hr => ?_, fun t r hr k hk hp => ?_⟩,
    kept_of_tables h.wellFormed fun f hf => (hcommon f hf).1⟩
  · rw [inTree_congr fun f hf => (hcommon f hf).1] at hf
    rw [(hcommon f hf).2]
    exact h.tables f hf
  · rw [(hroot hr).2]
    exact h.rooted t r hr
  · rw [(hroot hr).1] at hp
    refine (h.slots t r hr k hk hp).congr (by rw [(hroot hr).1]) (fun _ => ?_) fun f hf => ?_
    · rw [(hcommon common (InTree.self ..)).1]
    · exact hs f (by rw [hf]; rfl)

theorem isTable_root (hp : present (ram f k) = true) : IsTable 3 (ram f k) := by
  refine ⟨hp, ?_⟩
  rw [isLarge, Bool.and_eq_false_iff]
  exact Or.inr rfl

/-! `map` at the common root. -/

section Common
variable (h : Layout usable common own ram stock root)
include h

theorem Layout.small (hf : f ∈ stock) : f < 2^36 :=
  (h.good f (by rw [h.stocked f hf]; rfl)).lt

theorem Layout.commonStock : Stock (InTree ram 3 common) stock := by
  refine ⟨h.nodup, fun f hf hin => ?_, fun f hf => h.small hf⟩
  have hown := h.tables f hin
  rw [h.stocked f hf] at hown
  cases hown

theorem Layout.grow {pool : List Nat} (hpool : stock = taken ++ pool)
    (hw : WellFormed ram' 3 common)
    (hsame : ∀ f, ¬InTree ram 3 common f → f ∉ taken → ram' f = ram f)
    (htree : ∀ f, InTree ram' 3 common f → InTree ram 3 common f ∨ f ∈ taken)
    (hentry : ∀ k < 512, present (ram common k) = true → ram' common k = ram common k) :
    Layout usable common (assign own taken .common) ram' pool root ∧
      Passed own (assign own taken .common) ram ram' := by
  have hnodup := h.nodup
  rw [hpool, List.nodup_append] at hnodup
  have htaken {f : Nat} (hf : f ∈ taken) : own f = .stock :=
    h.stocked f (hpool ▸ List.mem_append_left _ hf)
  have hother {f : Nat} (hf : own f ≠ .stock) : assign own taken .common f = own f :=
    assign_other (fun hin => hf (htaken hin)) _
  have hkeep {f : Nat} (hc : own f ≠ .common) (hs : own f ≠ .stock) : ram' f = ram f :=
    hsame f (fun hin => hc (h.tables f hin)) fun hin => hs (htaken hin)
  have hroot {t r : Nat} (hr : root t = some r) : ram' r = ram r :=
    hkeep (by rw [h.rooted t r hr]; nofun) (by rw [h.rooted t r hr]; nofun)
  refine ⟨⟨hw, fun f hf => ?_, fun f hf => ?_, hnodup.2.1, fun f hf => ?_, fun t r hr => ?_,
    fun t r hr k hk hp => ?_⟩, fun f hc hs => ⟨hother hs, ?_⟩⟩
  · by_cases hin : f ∈ taken
    · exact assign_taken hin _
    · rw [assign_other hin]
      exact h.tables f ((htree f hf).resolve_right hin)
  · rw [assign_other fun hin => hnodup.2.2 f hin f hf rfl]
    exact h.stocked f (hpool ▸ List.mem_append_right _ hf)
  · by_cases hin : f ∈ taken
    · rw [assign_taken hin] at hf
      cases hf
    · rw [assign_other hin] at hf
      exact h.good f hf
  · rw [hother (by rw [h.rooted t r hr]; nofun)]
    exact h.rooted t r hr
  · rw [hroot hr] at hp
    refine (h.slots t r hr k hk hp).congr (by rw [hroot hr]) (fun heq => ?_) fun f hf => ?_
    · exact hentry k hk (heq ▸ hp)
    · exact ⟨hkeep (by rw [hf]; nofun) (by rw [hf]; nofun), hother (by rw [hf]; nofun)⟩
  · exact hkeep (fun heq => by rw [heq] at hc; cases hc) hs

theorem Layout.map (hm : map ram stock common 3 vpn ppn u w = some (ram', pool')) :
    ∃ own', Layout usable common own' ram' pool' root ∧ Passed own own' ram ram' ∧
      Kept ram ram' common (· = vpn % 2^36) ∧
      ∃ e, findPte ram' 3 common vpn = some e ∧ ram' e.1 e.2 = makeEntry ppn u w := by
  have hs := h.commonStock
  obtain ⟨taken,hpool,hmap⟩ := map_mapped h.wellFormed hs hm
  have hentry (k : Nat) (_ : k < 512) (hp : present (ram common k) = true) :
      ram' common k = ram common k := map_entry_kept h.wellFormed hs hm (isTable_root hp)
  obtain ⟨hlayout,hpassed⟩ := h.grow hpool hmap.wellFormed hmap.same hmap.tree hentry
  have hpage {v : Nat} (hv : ¬v % 2^36 = vpn % 2^36) : v % 512^(3+1) ≠ vpn % 512^(3+1) := hv
  obtain ⟨f,i,hf,hleaf⟩ := hmap.leaf
  refine ⟨_, hlayout, hpassed, ⟨fun v hv => hmap.others v (hpage hv), fun v e hv he => ?_, hentry⟩,
    (f, i), hf, hleaf⟩
  exact map_findPte_kept h.wellFormed hs hm (hpage hv) he

theorem Layout.openEntry (hk : k < 512) (ho : openEntry ram stock common k 3 = some (ram', pool')) :
    ∃ own', Layout usable common own' ram' pool' root ∧ Passed own own' ram ram' ∧
      (Kept ram ram' common fun _ => False) ∧ present (ram' common k) = true := by
  have hs := h.commonStock
  obtain ⟨c,taken,hop⟩ := openEntry_opened (wellFormed_succ.mp h.wellFormed) hk hs ho
  have hpool (f : Nat) (hf : f ∈ taken) : f ∈ stock := hop.pool ▸ List.mem_append_left _ hf
  have hentry (i : Nat) (_ : i < 512) (hp : present (ram common i) = true) :
      ram' common i = ram common i := by
    by_cases hik : i = k
    · subst hik
      rw [openEntry_table (isTable_root hp)] at ho
      cases ho
      rfl
    · exact hop.grafted.others i hik
  have hw := hop.grafted.wellFormed (wellFormed_succ.mp h.wellFormed)
  obtain ⟨hlayout,hpassed⟩ := h.grow hop.pool (wellFormed_succ.mpr hw)
    (fun f hf ht => hop.same f (fun heq => hf (heq ▸ InTree.self ..)) ht)
    (fun f hf => (hop.grafted.inTree hf).elim Or.inl (hop.tree f)) hentry
  refine ⟨_, hlayout, hpassed, ⟨fun v _ => ?_, fun v e _ hf => ?_, hentry⟩, hop.grafted.entry.1⟩
  · by_cases hv : tableIndex v 3 = k
    · rw [hop.grafted.walk_self hv, hop.walk v hv]
    · exact hop.grafted.walk_other (wellFormed_succ.mp h.wellFormed) tableIndex_lt hv
  · obtain ⟨ht,hleaf⟩ := findPte_table hf
    have hsame := hentry _ tableIndex_lt ht.1
    have hrefl : ∀ f, f ≠ common → ¬InTree ram' 2 c f → f ∉ pool' → ram' f = ram' f :=
      fun _ _ _ _ => rfl
    have htree (hv : tableIndex v 3 ≠ k) :=
      opened_kept h.wellFormed hop hrefl hs.outside tableIndex_lt hv ht
    rw [findPte_below (by rw [hsame]; exact ht), hsame]
    by_cases hv : tableIndex v 3 = k
    · rw [← hv, openEntry_table ht] at ho
      cases ho
      exact ⟨hleaf, rfl⟩
    · rw [findPte_tree_congr (htree hv), hleaf,
        htree hv e.1 (findPte_inTree (show _ = some (e.1, e.2) from hleaf))]
      exact ⟨rfl, rfl⟩

end Common

/-! `map` at the root of a thread. -/

section Slot
variable (h : Layout usable common own ram stock root) (hr : root t = some r) (hk : k < 512)
include h hr hk

/-- The entry `k` of a thread's root leads to tables of its own, which take frames of the
stock. -/
theorem Layout.growSlot {c : Nat} (hpool : stock = taken ++ pool)
    (hc : entryPpn (ram' r k) = c) (hw : WellFormed ram' 2 c) (ho : Open ram' 2 c)
    (htree : ∀ f, InTree ram' 2 c f → own f = .slot t k ∨ f ∈ taken)
    (hentry : ∀ i, i ≠ k → ram' r i = ram r i)
    (hsame : ∀ f, f ≠ r → own f ≠ .slot t k → f ∉ taken → ram' f = ram f) :
    Layout usable common (assign own taken (.slot t k)) ram' pool root ∧
      Passed own (assign own taken (.slot t k)) ram ram' ∧ Kept ram ram' common changed := by
  have hnodup := h.nodup
  rw [hpool, List.nodup_append] at hnodup
  have htaken {f : Nat} (hf : f ∈ taken) : own f = .stock :=
    h.stocked f (hpool ▸ List.mem_append_left _ hf)
  have hother {f : Nat} (hf : own f ≠ .stock) : assign own taken (.slot t k) f = own f :=
    assign_other (fun hin => hf (htaken hin)) _
  have hkeep {f : Nat} (hfr : own f ≠ .root t) (hc : own f ≠ .slot t k) (hs : own f ≠ .stock) :
      ram' f = ram f :=
    hsame f (fun heq => hfr (heq ▸ h.rooted t r hr)) hc fun hin => hs (htaken hin)
  have hcommon (f : Nat) (hf : InTree ram 3 common f) : ram' f = ram f := by
    have hown := h.tables f hf
    exact hkeep (by rw [hown]; nofun) (by rw [hown]; nofun) (by rw [hown]; nofun)
  refine ⟨⟨h.wellFormed.congr hcommon, fun f hf => ?_, fun f hf => ?_, hnodup.2.1, fun f hf => ?_,
    fun t' r' hr' => ?_, fun t' r' hr' k' hk' hp => ?_⟩,
    fun f hf hs => ⟨hother hs, ?_⟩, kept_of_tables h.wellFormed hcommon⟩
  · rw [inTree_congr hcommon] at hf
    rw [hother (by rw [h.tables f hf]; nofun)]
    exact h.tables f hf
  · rw [assign_other fun hin => hnodup.2.2 f hin f hf rfl]
    exact h.stocked f (hpool ▸ List.mem_append_right _ hf)
  · by_cases hin : f ∈ taken
    · exact h.good f (by rw [htaken hin]; rfl)
    · rw [assign_other hin] at hf
      exact h.good f hf
  · rw [hother (by rw [h.rooted t' r' hr']; nofun)]
    exact h.rooted t' r' hr'
  · have hroot : own r' = .root t' := h.rooted t' r' hr'
    by_cases ht : t' = t
    · subst ht
      obtain rfl : r' = r := Option.some.inj (hr'.symm.trans hr)
      by_cases hkk : k' = k
      · subst hkk
        refine Or.inr ⟨hc ▸ hw, hc ▸ ho, fun f hf => ?_⟩
        rw [hc] at hf
        by_cases hin : f ∈ taken
        · exact assign_taken hin _
        · rw [assign_other hin]
          exact (htree f hf).resolve_right hin
      · rw [hentry k' hkk] at hp
        refine (h.slots t' r' hr' k' hk' hp).congr (hentry k' hkk) (fun _ => ?_) fun f hf => ?_
        · rw [hcommon common (InTree.self ..)]
        · have hne : own f ≠ .slot t' k := by
            rw [hf]
            exact fun heq => hkk (Owner.slot.inj heq).2
          exact ⟨hkeep (by rw [hf]; nofun) hne (by rw [hf]; nofun), hother (by rw [hf]; nofun)⟩
    · have hne : own r' ≠ .root t := by
        rw [hroot]
        exact fun heq => ht (Owner.root.inj heq)
      have hsame' : ram' r' = ram r' := hkeep hne (by rw [hroot]; nofun) (by rw [hroot]; nofun)
      rw [hsame'] at hp
      refine (h.slots t' r' hr' k' hk' hp).congr (by rw [hsame']) (fun _ => ?_) fun f hf => ?_
      · rw [hcommon common (InTree.self ..)]
      · have hne : own f ≠ .slot t k := by
          rw [hf]
          exact fun heq => ht (Owner.slot.inj heq).1
        exact ⟨hkeep (by rw [hf]; nofun) hne (by rw [hf]; nofun), hother (by rw [hf]; nofun)⟩
  · refine hkeep (fun heq => ?_) (fun heq => ?_) hs
    · rw [heq] at hf
      cases hf
    · rw [heq] at hf
      cases hf

theorem Layout.mapSlot
    (hslot : WellFormed ram 2 (entryPpn (ram r k)) ∧ Open ram 2 (entryPpn (ram r k)) ∧
      ∀ f, InTree ram 2 (entryPpn (ram r k)) f → own f = .slot t k)
    (hm : PageTables.map ram stock (entryPpn (ram r k)) 2 vpn ppn u w = some (ram', pool')) :
    ∃ own', Layout usable common own' ram' pool' root ∧ Passed own own' ram ram' ∧
      Kept ram ram' common changed := by
  obtain ⟨hw,ho,hown⟩ := hslot
  have hstock (f : Nat) (hf : f ∈ stock) (x : Owner) (hx : x ≠ .stock) : own f ≠ x := by
    rw [h.stocked f hf]
    exact hx.symm
  obtain ⟨taken,hpool,hmap⟩ := map_mapped hw ⟨h.nodup,
    fun f hf hin => hstock f hf (.slot t k) nofun (hown f hin), fun f hf => h.small hf⟩ hm
  have hself : ram' r = ram r := by
    refine hmap.same r (fun hin => ?_) fun hin => ?_
    · have heq := hown r hin
      rw [h.rooted t r hr] at heq
      cases heq
    · exact hstock r (hpool ▸ List.mem_append_left _ hin) (.root t) nofun (h.rooted t r hr)
  refine ⟨_, h.growSlot hr hk hpool (by rw [hself]) hmap.wellFormed (hmap.plain ho).1
    (fun f hf => (hmap.tree f hf).imp_left (hown f)) (fun i _ => by rw [hself])
    fun f _ hf ht => hmap.same f (fun hin => hf (hown f hin)) ht⟩

theorem Layout.openSlot {c : Nat} (hstock : stock = c :: pool) :
    Layout usable common (assign own [c] (.slot t k))
        (storeWord (zeroFrame ram c) r k (makeEntry c true true)) pool root ∧
      Passed own (assign own [c] (.slot t k)) ram
        (storeWord (zeroFrame ram c) r k (makeEntry c true true)) ∧
      Kept ram (storeWord (zeroFrame ram c) r k (makeEntry c true true)) common changed := by
  have hmem : c ∈ stock := hstock ▸ List.mem_cons_self
  have hne : c ≠ r := by
    rintro rfl
    have heq := h.rooted t c hr
    rw [h.stocked c hmem] at heq
    cases heq
  have htable : storeWord (zeroFrame ram c) r k (makeEntry c true true) r =
      update (ram r) k (makeEntry c true true) := by
    rw [storeWord, update_self, zeroFrame, update_of_ne hne.symm]
  have hchild : storeWord (zeroFrame ram c) r k (makeEntry c true true) c = fun _ => 0 := by
    rw [storeWord, update_of_ne hne, zeroFrame, update_self]
  have hleaf (i : Nat) (_ : i < 512) :
      ¬IsTable 2 (storeWord (zeroFrame ram c) r k (makeEntry c true true) c i) := by
    rw [hchild]
    exact fun ht => absurd ht.1 (by simp)
  refine h.growSlot hr hk hstock ?_ (wellFormed_leaves (fun _ => hleaf) fun i hi hp => ?_)
    (open_absent fun i _ => ?_) (fun f hf => ?_) (fun i hi => ?_) fun f hf _ ht => ?_
  · rw [htable, update_self, entryPpn_makeEntry (h.small hmem)]
  · rw [hchild] at hp
    simp at hp
  · rw [hchild]
    exact present_zero
  · exact Or.inr (List.mem_singleton.mpr (inTree_leaves (fun _ => hleaf) hf))
  · rw [htable, update_of_ne hi]
  · rw [storeWord, update_of_ne hf, zeroFrame, update_of_ne (by simpa using ht)]

end Slot

theorem Layout.mapRoot (h : Layout usable common own ram stock root) (hr : root t = some r)
    (hm : PageTables.map ram stock r 3 vpn ppn u w = some (ram', pool')) :
    ∃ own', Layout usable common own' ram' pool' root ∧ Passed own own' ram ram' ∧
      Kept ram ram' common (· = vpn % 2^36) := by
  have hk : tableIndex vpn 3 < 512 := tableIndex_lt
  by_cases hp : present (ram r (tableIndex vpn 3)) = true
  · rw [map_below (isTable_root hp)] at hm
    obtain ⟨heq,-⟩ | hslot := h.slots t r hr _ hk hp
    · -- below an entry that is shared the page goes into the common tables
      rw [heq] at hm hp
      rw [← map_below (isTable_root hp)] at hm
      obtain ⟨own',hlayout,hpassed,hkept,-⟩ := h.map hm
      exact ⟨own', hlayout, hpassed, hkept⟩
    · exact h.mapSlot hr hk hslot hm
  · cases stock with
    | nil =>
      rw [PageTables.map, PageTables.openEntry, if_neg hp] at hm
      cases hm
    | cons c pool =>
      rw [map_absent (by simpa using hp)] at hm
      obtain ⟨hlayout,hpassed,hkept⟩ : _ ∧ _ ∧ Kept ram _ common (· = vpn % 2^36) :=
        h.openSlot hr hk rfl
      have hself : storeWord (zeroFrame ram c) r (tableIndex vpn 3) (makeEntry c true true) r
          (tableIndex vpn 3) = makeEntry c true true := by
        rw [storeWord, update_self, update_self]
      generalize storeWord (zeroFrame ram c) r (tableIndex vpn 3) (makeEntry c true true) =
        ram₁ at *
      rw [map_below (hself ▸ isTable_makeEntry)] at hm
      have hc : entryPpn (ram₁ r (tableIndex vpn 3)) = c := by
        rw [hself, entryPpn_makeEntry (h.small List.mem_cons_self)]
      obtain ⟨heq,-⟩ | hslot := hlayout.slots t r hr _ hk (hself ▸ present_makeEntry)
      · have hin : InTree ram₁ 3 common c := by
          refine InNode.child hk (heq ▸ hself ▸ isTable_makeEntry) ?_
          rw [← heq, hc]
          exact InTree.self ..
        have hown := hlayout.tables c hin
        rw [assign_taken (List.mem_singleton_self c)] at hown
        cases hown
      · obtain ⟨own',hlayout',hpassed',hkept'⟩ := hlayout.mapSlot hr hk hslot hm
        exact ⟨own', hlayout', hpassed.trans hpassed', hkept.trans hkept'⟩

/-! A frame on its way from the stock to a page. -/

section Frame
variable (h : Layout usable common own ram stock root)
include h

theorem Layout.store {content : Nat → Nat} (hf : (own f).isTable = false) :
    Layout usable common own (update ram f content) stock root ∧
      Kept ram (update ram f content) common fun _ => False := by
  refine h.edit (fun g hg => ⟨update_of_ne ?_ _ _, rfl⟩) h.stocked h.nodup fun _ hg => hg
  rintro rfl
  rw [hf] at hg
  cases hg

theorem Layout.give {x : Owner} (hf : (own f).isTable = false) (hm : (own f).managed = true)
    (hs : own f ≠ .stock) : Layout usable common (assign own [f] x) ram stock root := by
  have hedit : Layout usable common (assign own [f] x) ram stock root ∧
      Kept ram ram common fun _ => False := by
    refine h.edit (fun g hg => ⟨rfl, assign_other (fun hin => ?_) _⟩) (fun g hg => ?_) h.nodup
      fun g hg => ?_
    · rw [List.mem_singleton.mp hin, hf] at hg
      cases hg
    · rw [assign_other fun hin => hs (by rw [← List.mem_singleton.mp hin]; exact h.stocked g hg)]
      exact h.stocked g hg
    · by_cases hin : g ∈ [f]
      · rw [List.mem_singleton.mp hin]
        exact hm
      · rwa [assign_other hin] at hg
  exact hedit.1

theorem Layout.alloc {pool : List Nat} {x : Owner} (hstock : stock = f :: pool) :
    Layout usable common (assign own [f] x) (zeroFrame ram f) pool root ∧
      (Kept ram (zeroFrame ram f) common fun _ => False) ∧
      ∀ g, g ≠ f → assign own [f] x g = own g ∧ zeroFrame ram f g = ram g := by
  have hown : own f = .stock := h.stocked f (hstock ▸ List.mem_cons_self)
  obtain ⟨hnot,hnodup⟩ := List.nodup_cons.mp (hstock ▸ h.nodup)
  have hother (g : Nat) (hg : g ≠ f) : assign own [f] x g = own g ∧ zeroFrame ram f g = ram g :=
    ⟨assign_other (by simpa using hg) _, update_of_ne hg _ _⟩
  have hedit : Layout usable common (assign own [f] x) (zeroFrame ram f) pool root ∧
      Kept ram (zeroFrame ram f) common fun _ => False := by
    refine h.edit (fun g hg => (hother g ?_).symm) (fun g hg => ?_) hnodup fun g hg => ?_
    · rintro rfl
      rw [hown] at hg
      cases hg
    · rw [(hother g fun heq => hnot (heq ▸ hg)).1]
      exact h.stocked g (hstock ▸ List.mem_cons_of_mem _ hg)
    · by_cases hgf : g = f
      · rw [hgf, hown]
        rfl
      · rwa [(hother g hgf).1] at hg
  exact ⟨hedit.1, hedit.2, hother⟩

theorem Layout.release {link : List Nat → Nat} (hf : (own f).isTable = false)
    (hm : (own f).managed = true) (hs : own f ≠ .stock) :
    free usable link (ram, stock) f = (storeWord ram f 0 (link stock), f :: stock) ∧
      Layout usable common (assign own [f] .stock) (storeWord ram f 0 (link stock)) (f :: stock)
        root ∧
      Kept ram (storeWord ram f 0 (link stock)) common fun _ => False := by
  have hnot : f ∉ stock := fun hin => hs (h.stocked f hin)
  refine ⟨free_good (h.good f hm) hnot, h.edit (fun g hg => ?_) (fun g hg => ?_)
    (List.nodup_cons.mpr ⟨hnot, h.nodup⟩) fun g hg => ?_⟩
  · have hgf : g ≠ f := by
      rintro rfl
      rw [hf] at hg
      cases hg
    exact ⟨update_of_ne hgf _ _, assign_other (by simpa using hgf) _⟩
  · by_cases hin : g ∈ [f]
    · exact assign_taken hin _
    · rw [assign_other hin]
      exact h.stocked g ((List.mem_cons.mp hg).resolve_left (by simpa using hin))
  · by_cases hin : g ∈ [f]
    · rw [List.mem_singleton.mp hin]
      exact hm
    · rwa [assign_other hin] at hg

end Frame

/-! A thread's root at its start and at its end. -/

/-- The root that `init_thread` fills: the upper half is that of the common root. -/
def threadRoot (common c : Nat) (ram : Ram) : Nat → Nat :=
  fun i => if 256 ≤ i ∧ i < 512 then zeroFrame ram c common i else zeroFrame ram c c i

theorem Layout.start (h : Layout usable common own ram stock root) {c : Nat}
    (hstock : stock = c :: pool) :
    Layout usable common (assign own [c] (.root t))
        (update (zeroFrame ram c) c (threadRoot common c ram)) pool (update root t (some c)) ∧
      Passed own (assign own [c] (.root t)) ram
        (update (zeroFrame ram c) c (threadRoot common c ram)) ∧
      Kept ram (update (zeroFrame ram c) c (threadRoot common c ram)) common fun _ => False := by
  have hown : own c = .stock := h.stocked c (hstock ▸ List.mem_cons_self)
  obtain ⟨hnot,hnodup⟩ := List.nodup_cons.mp (hstock ▸ h.nodup)
  have hother (g : Nat) (hg : g ≠ c) : assign own [c] (.root t) g = own g ∧
      update (zeroFrame ram c) c (threadRoot common c ram) g = ram g :=
    ⟨assign_other (by simpa using hg) _, by rw [update_of_ne hg, zeroFrame, update_of_ne hg]⟩
  have hcommon : common ≠ c := by
    rintro rfl
    have heq := h.tables common (InTree.self ..)
    rw [hown] at heq
    cases heq
  have hedit : Layout usable common (assign own [c] (.root t))
      (update (zeroFrame ram c) c (threadRoot common c ram)) pool root ∧
        Kept ram (update (zeroFrame ram c) c (threadRoot common c ram)) common fun _ => False := by
    refine h.edit (fun g hg => (hother g ?_).symm) (fun g hg => ?_) hnodup fun g hg => ?_
    · rintro rfl
      rw [hown] at hg
      cases hg
    · rw [(hother g fun heq => hnot (heq ▸ hg)).1]
      exact h.stocked g (hstock ▸ List.mem_cons_of_mem _ hg)
    · by_cases hgc : g = c
      · rw [hgc, hown]
        rfl
      · rwa [(hother g hgc).1] at hg
  obtain ⟨⟨hw,htables,hstocked,hpool,hgood,hrooted,hslots⟩,hkept⟩ := hedit
  refine ⟨⟨hw, htables, hstocked, hpool, hgood, fun t' r' hr => ?_, fun t' r' hr k hk hp => ?_⟩,
    fun g hg hs => hother g fun heq => hs (heq ▸ hown), hkept⟩
  · by_cases ht : t' = t
    · subst ht
      rw [update_self] at hr
      cases hr
      exact assign_taken (List.mem_singleton_self c) _
    · rw [update_of_ne ht] at hr
      exact hrooted t' r' hr
  · by_cases ht : t' = t
    · subst ht
      rw [update_self] at hr
      cases hr
      rw [update_self, threadRoot] at hp
      split at hp
      · rename_i hupper
        refine Or.inl ⟨?_, hupper.1⟩
        rw [update_self, threadRoot, if_pos hupper, (hother common hcommon).2, zeroFrame,
          update_of_ne hcommon]
      · rw [zeroFrame, update_self, present_zero] at hp
        cases hp
    · rw [update_of_ne ht] at hr
      exact hslots t' r' hr k hk hp

theorem free_other {link : List Nat → Nat} {s : State} {g : Nat} (hg : g ≠ f) :
    (free usable link s f).1 g = s.1 g := by
  unfold free
  split
  · rfl
  split
  · rfl
  split
  · rfl
  · exact update_of_ne hg _ _

section Finish
variable (h : Layout usable common own ram stock root) (hr : root t = some r)
include h hr

theorem Layout.lower (hk : k < 256) (hp : present (ram r k) = true) :
    WellFormed ram 2 (entryPpn (ram r k)) ∧ Open ram 2 (entryPpn (ram r k)) ∧
      ∀ f, InTree ram 2 (entryPpn (ram r k)) f → own f = .slot t k := by
  refine (h.slots t r hr k (by omega) hp).resolve_left fun hshared => ?_
  have hupper := hshared.2
  omega

theorem Layout.lowerPlain : Plain ram 256 3 r := fun _ hk hp =>
  ⟨(isTable_root hp).2, plain_open (h.lower hr hk hp).2.1⟩

theorem Layout.lowerOwner (hf : f ∈ below ram 256 2 r) : ∃ k, own f = .slot t k := by
  obtain ⟨_,hk,hf⟩ := List.mem_flatMap.mp hf
  unfold child at hf
  split at hf
  · rename_i hp
    obtain ⟨-,hopen,hown⟩ := h.lower hr (List.mem_range.mp hk) hp
    exact ⟨_, hown f (mem_nodes (plain_open hopen) hf)⟩
  · cases hf

theorem Layout.lowerNodup : (r :: below ram 256 2 r).Nodup := by
  refine nodup_below (fun k hk hp => ?_) fun k hk j hj hkj hpk hpj f hf hf' => ?_
  · obtain ⟨hw,ho,hown⟩ := h.lower hr hk hp
    refine ⟨nodup_nodes hw (plain_open ho), plain_open ho, fun hin => ?_⟩
    have heq := hown r hin
    rw [h.rooted t r hr] at heq
    cases heq
  · have heq := (h.lower hr hk hpk).2.2 f hf
    rw [(h.lower hr hj hpj).2.2 f hf'] at heq
    exact hkj (Owner.slot.inj heq).2.symm

theorem Layout.lowerOwned (hf : f ∈ r :: below ram 256 2 r) :
    own f = .root t ∨ ∃ k, own f = .slot t k := by
  obtain rfl | hf := List.mem_cons.mp hf
  · exact Or.inl (h.rooted t _ hr)
  · exact Or.inr (h.lowerOwner hr hf)

theorem Layout.lowerGood (hf : f ∈ r :: below ram 256 2 r) : Good usable f := by
  refine h.good f ?_
  obtain heq | ⟨k,heq⟩ := h.lowerOwned hr hf
  · rw [heq]
    rfl
  · rw [heq]
    rfl

theorem Layout.lowerStock : (stock ++ r :: below ram 256 2 r).Nodup := by
  refine List.nodup_append.mpr ⟨h.nodup, h.lowerNodup hr, fun a ha b hb heq => ?_⟩
  subst heq
  have hstock := h.stocked a ha
  obtain hown | ⟨k,hown⟩ := h.lowerOwned hr hb
  · rw [hstock] at hown
    cases hown
  · rw [hstock] at hown
    cases hown

theorem Layout.finish_other (link : List Nat → Nat) (hf : f ∉ r :: below ram 256 2 r) :
    (free usable link (freePrivatePageTables usable link r (ram, stock)) r).1 f = ram f := by
  rw [List.mem_cons, not_or] at hf
  have hkept : ∀ f, f ≠ r → f ∉ below ram 256 2 r →
      (freePrivatePageTables usable link r (ram, stock)).1 f = ram f :=
    (freeEntries_spec (s := (ram, stock)) (frees_tree 2) (h.lowerStock hr) (h.lowerPlain hr)
      fun f hf => h.lowerGood hr (List.mem_cons_of_mem _ hf)).2.1
  rw [free_other hf.1]
  exact hkept f hf.1 hf.2

theorem Layout.finish (link : List Nat → Nat) :
    Layout usable common (assign own (r :: below ram 256 2 r) .stock)
        (free usable link (freePrivatePageTables usable link r (ram, stock)) r).1
        (free usable link (freePrivatePageTables usable link r (ram, stock)) r).2
        (update root t none) ∧
      Passed own (assign own (r :: below ram 256 2 r) .stock) ram
        (free usable link (freePrivatePageTables usable link r (ram, stock)) r).1 ∧
      Kept ram (free usable link (freePrivatePageTables usable link r (ram, stock)) r).1 common
        fun _ => False := by
  have hperm := removed_perm link (s := (ram, stock)) (h.lowerPlain hr) (h.lowerStock hr)
    fun f hf => h.lowerGood hr hf
  have hsame (f : Nat) (hf : f ∉ r :: below ram 256 2 r) := h.finish_other hr link hf
  generalize free usable link (freePrivatePageTables usable link r (ram, stock)) r = s' at *
  have hkeep {f : Nat} (hrt : own f ≠ .root t) (hst : ∀ k, own f ≠ .slot t k) :
      assign own (r :: below ram 256 2 r) .stock f = own f ∧ s'.1 f = ram f := by
    have hnot : f ∉ r :: below ram 256 2 r := fun hin =>
      (h.lowerOwned hr hin).elim hrt fun hex => hst hex.choose hex.choose_spec
    exact ⟨assign_other hnot _, hsame f hnot⟩
  have hcommon (f : Nat) (hf : InTree ram 3 common f) :
      assign own (r :: below ram 256 2 r) .stock f = own f ∧ s'.1 f = ram f := by
    have hown := h.tables f hf
    exact hkeep (by rw [hown]; nofun) fun k => by rw [hown]; nofun
  have htree (f : Nat) (hf : InTree ram 3 common f) : s'.1 f = ram f := (hcommon f hf).2
  refine ⟨⟨h.wellFormed.congr htree, fun f hf => ?_, fun f hf => ?_,
    hperm.nodup_iff.mpr (h.lowerStock hr),
    fun f hf => ?_, fun t' r' hr' => ?_, fun t' r' hr' k hk hp => ?_⟩, fun f hf hs => ?_,
    kept_of_tables h.wellFormed htree⟩
  · rw [inTree_congr htree] at hf
    rw [(hcommon f hf).1]
    exact h.tables f hf
  · by_cases hin : f ∈ r :: below ram 256 2 r
    · exact assign_taken hin _
    · rw [assign_other hin]
      exact h.stocked f ((List.mem_append.mp (hperm.mem_iff.mp hf)).resolve_right hin)
  · by_cases hin : f ∈ r :: below ram 256 2 r
    · exact h.lowerGood hr hin
    · rw [assign_other hin] at hf
      exact h.good f hf
  · by_cases ht : t' = t
    · rw [ht, update_self] at hr'
      cases hr'
    · rw [update_of_ne ht] at hr'
      have hown := h.rooted t' r' hr'
      rw [(hkeep (by rw [hown]; exact fun heq => ht (Owner.root.inj heq)) fun k => by
        rw [hown]; nofun).1]
      exact hown
  · by_cases ht : t' = t
    · rw [ht, update_self] at hr'
      cases hr'
    · rw [update_of_ne ht] at hr'
      have hown := h.rooted t' r' hr'
      have hself := (hkeep (by rw [hown]; exact fun heq => ht (Owner.root.inj heq)) fun k => by
        rw [hown]; nofun).2
      rw [hself] at hp
      refine (h.slots t' r' hr' k hk hp).congr (by rw [hself]) (fun _ => ?_) fun f hf => ?_
      · rw [htree common (InTree.self ..)]
      · exact (hkeep (by rw [hf]; nofun) fun k => by
          rw [hf]
          exact fun heq => ht (Owner.slot.inj heq).1).symm
  · refine hkeep (fun heq => ?_) fun k heq => ?_
    · rw [heq] at hf
      cases hf
    · rw [heq] at hf
      cases hf

end Finish

end NetKernel.Territories
