import NetKernel.Lib.Slots
import NetKernel.Memory.PageTable

/-! The frames that a tree of tables holds, listed: its tables and its pages. What `map` and
the removal of a page do to the list, and the removal of the tables. -/
namespace NetKernel.Ownership
open Function PageTables Slots
open Frames (Ram storeWord zeroFrame)

/-- The frames from a node down; a node of depth 0 is a page. -/
def nodes (ram : Ram) : Nat → Nat → List Nat
  | 0, node => [node]
  | depth+1, table => table :: (List.range 512).flatMap fun i =>
      if present (ram table i) then nodes ram depth (entryPpn (ram table i)) else []

def child (ram : Ram) (depth table i : Nat) : List Nat :=
  if present (ram table i) then nodes ram depth (entryPpn (ram table i)) else []

/-- The frames below the first `n` entries of a table. -/
def below (ram : Ram) (n depth table : Nat) : List Nat :=
  (List.range n).flatMap (child ram depth table)

/-- No large pages below the first `n` entries of a table of a level. -/
def Plain (ram : Ram) : Nat → Nat → Nat → Prop
  | _, 0, _ => True
  | n, level+1, table => ∀ i < n, present (ram table i) = true →
      isLarge (level+1) (ram table i) = false ∧ Plain ram 512 level (entryPpn (ram table i))

variable {ram ram' ram₁ : Ram} {n depth level table node f k c vpn : Nat}

theorem nodes_succ : nodes ram (depth+1) table = table :: below ram 512 depth table := rfl

theorem nodes_self : node ∈ nodes ram depth node := by
  cases depth with
  | zero => exact List.mem_singleton_self node
  | succ depth => exact List.mem_cons_self

theorem mem_below {i : Nat} (hi : i < n) (hf : f ∈ child ram depth table i) :
    f ∈ below ram n depth table :=
  List.mem_flatMap.mpr ⟨i, List.mem_range.mpr hi, hf⟩

theorem child_present (hp : present (ram table k) = true) :
    child ram depth table k = nodes ram depth (entryPpn (ram table k)) := if_pos hp

theorem child_absent (hp : present (ram table k) = false) : child ram depth table k = [] :=
  if_neg (by simp [hp])

theorem below_absent (h : ∀ i < n, present (ram table i) = false) : below ram n depth table = [] :=
  List.flatMap_eq_nil_iff.mpr fun i hi => child_absent (h i (List.mem_range.mp hi))

theorem below_succ : below ram (n+1) depth table =
    below ram n depth table ++ child ram depth table n := by
  simp [below, List.range_succ]

theorem nodes_congr (h : ∀ f ∈ nodes ram depth node, ram' f = ram f) :
    nodes ram' depth node = nodes ram depth node := by
  induction depth generalizing node with
  | zero => rfl
  | succ depth ih =>
    have htable : ram' node = ram node := h node nodes_self
    refine congrArg (node :: ·) (List.flatMap_congr fun i hi => ?_)
    rw [htable]
    split
    · rename_i hp
      refine ih fun f hf => h f (List.mem_cons_of_mem _ ?_)
      exact mem_below (List.mem_range.mp hi) (child_present hp ▸ hf)
    · rfl

theorem child_congr {i : Nat} (ht : ram' table i = ram table i)
    (h : ∀ f ∈ child ram depth table i, ram' f = ram f) :
    child ram' depth table i = child ram depth table i := by
  unfold child at *
  rw [ht]
  split
  · rename_i hp
    rw [if_pos hp] at h
    exact nodes_congr h
  · rfl

theorem below_congr (h : ∀ f ∈ table :: below ram n depth table, ram' f = ram f) :
    below ram' n depth table = below ram n depth table := by
  refine List.flatMap_congr fun i hi => child_congr ?_ fun f hf => h f ?_
  · rw [h table List.mem_cons_self]
  · exact List.mem_cons_of_mem _ (mem_below (List.mem_range.mp hi) hf)

theorem Plain.congr (hp : Plain ram n level table)
    (h : ∀ f ∈ table :: below ram n level table, ram' f = ram f) : Plain ram' n level table := by
  induction level generalizing n table with
  | zero => trivial
  | succ level ih =>
    intro i hi hpres
    rw [h table List.mem_cons_self] at hpres ⊢
    obtain ⟨hl,hchild⟩ := hp i hi hpres
    refine ⟨hl, ih hchild fun f hf => h f (List.mem_cons_of_mem _ (mem_below hi ?_))⟩
    rw [child_present hpres, nodes_succ]
    exact hf

theorem Plain.congr_nodes (hp : Plain ram 512 depth node)
    (h : ∀ f ∈ nodes ram depth node, ram' f = ram f) : Plain ram' 512 depth node := by
  induction depth generalizing node with
  | zero => trivial
  | succ depth ih =>
    intro i hi hpres
    rw [h node nodes_self] at hpres ⊢
    obtain ⟨hl,hchild⟩ := hp i hi hpres
    refine ⟨hl, ih hchild fun f hf => h f (List.mem_cons_of_mem _ (mem_below hi ?_))⟩
    rw [child_present hpres]
    exact hf

theorem findPte_congr (hn : tableIndex vpn level < n)
    (h : ∀ f ∈ table :: below ram n level table, ram' f = ram f) :
    findPte ram' level table vpn = findPte ram level table vpn := by
  induction level generalizing n table with
  | zero => simp only [findPte, h table List.mem_cons_self]
  | succ level ih =>
    simp only [findPte, h table List.mem_cons_self]
    split
    · rfl
    split
    · rfl
    · rename_i hp _
      refine ih tableIndex_lt fun f hf => h f (List.mem_cons_of_mem _ (mem_below hn ?_))
      rw [child_present (by simpa using hp), nodes_succ]
      exact hf

/-! What is in a page does not matter. -/

theorem nodes_congr_tables (h : ∀ f ∈ nodes ram depth node, ram' f = ram f) :
    nodes ram' (depth+1) node = nodes ram (depth+1) node := by
  induction depth generalizing node with
  | zero =>
    have hself : ram' node = ram node := h node nodes_self
    simp only [nodes, hself]
  | succ depth ih =>
    have htable : ram' node = ram node := h node nodes_self
    refine congrArg (node :: ·) (List.flatMap_congr fun i hi => ?_)
    rw [htable]
    split
    · rename_i hp
      refine ih fun f hf => h f (List.mem_cons_of_mem _ ?_)
      exact mem_below (List.mem_range.mp hi) (child_present hp ▸ hf)
    · rfl

theorem findPte_nodes (h : ∀ f ∈ nodes ram level node, ram' f = ram f) :
    findPte ram' level node vpn = findPte ram level node vpn := by
  induction level generalizing node with
  | zero => simp only [findPte, h node nodes_self]
  | succ level ih =>
    simp only [findPte, h node nodes_self]
    split
    · rfl
    split
    · rfl
    · rename_i hp _
      have hpres : present (ram node (tableIndex vpn (level+1))) = true := by simpa using hp
      refine ih fun f hf => h f (List.mem_cons_of_mem _ ?_)
      rw [← child_present hpres] at hf
      exact mem_below tableIndex_lt hf

section Tables
variable (h : ∀ f ∈ table :: below ram n depth table, ram' f = ram f)
include h

theorem child_nodes {i : Nat} (hi : i < n) (hp : present (ram table i) = true) :
    ∀ f ∈ nodes ram depth (entryPpn (ram table i)), ram' f = ram f := fun f hf =>
  h f (List.mem_cons_of_mem _ (mem_below hi (child_present hp ▸ hf)))

theorem below_congr_tables : below ram' n (depth+1) table = below ram n (depth+1) table := by
  refine List.flatMap_congr fun i hi => ?_
  unfold child
  rw [h table List.mem_cons_self]
  split
  · rename_i hp
    exact nodes_congr_tables (child_nodes h (List.mem_range.mp hi) hp)
  · rfl

theorem Plain.congr_tables (hp : Plain ram n (depth+1) table) : Plain ram' n (depth+1) table := by
  intro i hi hpres
  rw [h table List.mem_cons_self] at hpres ⊢
  obtain ⟨hl,hchild⟩ := hp i hi hpres
  exact ⟨hl, hchild.congr_nodes (child_nodes h hi hpres)⟩

theorem findPte_congr_tables (hn : tableIndex vpn (depth+1) < n) :
    findPte ram' (depth+1) table vpn = findPte ram (depth+1) table vpn := by
  simp only [findPte, h table List.mem_cons_self]
  split
  · rfl
  split
  · rfl
  · rename_i hp _
    exact findPte_nodes (child_nodes h hn (by simpa using hp))

end Tables

theorem below_edit (ram' : Ram) (hk : k < n) (hnodup : (below ram n depth table).Nodup)
    (ho : ∀ i < n, i ≠ k → ram' table i = ram table i)
    (hs : ∀ f ∈ below ram n depth table, f ∉ child ram depth table k → ram' f = ram f) :
    ∃ rest, (below ram n depth table).Perm (child ram depth table k ++ rest) ∧
      (below ram' n depth table).Perm (child ram' depth table k ++ rest) ∧
      ∀ i < n, i ≠ k → ∀ f ∈ child ram depth table i, ram' f = ram f := by
  have hsplit := flatMap_split (child ram depth table) hk
  have hapart := (List.nodup_append.mp (hsplit.nodup_iff.mp hnodup)).2.2
  have hother (i : Nat) (hi : i < n) (hne : i ≠ k) (f : Nat)
      (hf : f ∈ child ram depth table i) : ram' f = ram f := by
    refine hs f (mem_below hi hf) fun hfk => hapart f hfk f ?_ rfl
    exact List.mem_flatMap.mpr ⟨i, List.nodup_range.mem_erase_iff.mpr
      ⟨hne, List.mem_range.mpr hi⟩, hf⟩
  refine ⟨_, hsplit, ?_, hother⟩
  rw [← flatMap_erase_congr fun i hi hne => child_congr (ho i hi hne) (hother i hi hne)]
  exact flatMap_split _ hk

/-! A change of the entry of one page, from its leaf table up to the root. -/

/-- The tables from one of a level lose the frames `gone` and get those of `come`; the pages
other than `vpn` stay mapped or not mapped. -/
structure Edit (ram ram' : Ram) (n level table vpn : Nat) (gone come : List Nat) : Prop where
  frames : (gone ++ below ram' n level table).Perm (come ++ below ram n level table)
  same : ∀ f, f ≠ table → f ∉ below ram n level table → f ∉ come → ram' f = ram f
  plain : Plain ram' n level table
  mapped : (findPte ram' level table vpn).isSome = (gone == [])
  others : ∀ vpn', tableIndex vpn' level < n → vpn' % 512^(level+1) ≠ vpn % 512^(level+1) →
    (findPte ram' level table vpn').isSome = (findPte ram level table vpn').isSome
  high : ∀ i, n ≤ i → ram' table i = ram table i

/-- The entry `k` of a table leads to the table `c`, for which `taken` may have been used. -/
structure Opening (ram ram' : Ram) (level table k c : Nat) (taken : List Nat) : Prop where
  others : ∀ i, i ≠ k → ram' table i = ram table i
  entry : IsTable (level+1) (ram' table k)
  ppn : entryPpn (ram' table k) = c
  same : ∀ f, f ≠ table → f ∉ taken → ram' f = ram f
  frames : (nodes ram' (level+1) c).Perm (taken ++ child ram (level+1) table k)
  plain : Plain ram' 512 level c
  mapped : ∀ vpn, tableIndex vpn (level+1) = k →
    (findPte ram' level c vpn).isSome = (findPte ram (level+1) table vpn).isSome

theorem opening_table (hp : Plain ram n (level+1) table) (hk : k < n)
    (hpres : present (ram table k) = true) :
    Opening ram ram level table k (entryPpn (ram table k)) [] := by
  obtain ⟨hl,hplain⟩ := hp k hk hpres
  refine ⟨fun _ _ => rfl, ⟨hpres, hl⟩, rfl, fun _ _ _ => rfl, ?_, hplain, fun vpn hv => ?_⟩
  · rw [child_present hpres]
    exact .refl _
  · simp [findPte, hv, hpres, hl]

theorem opening_fresh (hpres : present (ram table k) = false) (hne : c ≠ table)
    (hc : c < 2^36) :
    Opening ram (storeWord (zeroFrame ram c) table k (makeEntry c true true)) level table k c
      [c] := by
  have htable : storeWord (zeroFrame ram c) table k (makeEntry c true true) table =
      update (ram table) k (makeEntry c true true) := by
    rw [storeWord, update_self, zeroFrame, update_of_ne hne.symm]
  have hchild : storeWord (zeroFrame ram c) table k (makeEntry c true true) c = fun _ => 0 := by
    rw [storeWord, update_of_ne hne, zeroFrame, update_self]
  have habsent (i : Nat) (_ : i < 512) : present
      (storeWord (zeroFrame ram c) table k (makeEntry c true true) c i) = false := by
    rw [hchild]
    exact present_zero
  refine ⟨fun i hi => ?_, ?_, ?_, fun f hf ht => ?_, ?_, ?_, fun vpn hv => ?_⟩
  · rw [htable, update_of_ne hi]
  · rw [htable, update_self]
    exact ⟨present_makeEntry, by rw [isLarge, huge_makeEntry, Bool.false_and]⟩
  · rw [htable, update_self, entryPpn_makeEntry hc]
  · rw [storeWord, update_of_ne hf, zeroFrame, update_of_ne (by simpa using ht)]
  · rw [nodes_succ, below_absent habsent, child_absent hpres]
    exact .refl _
  · cases level with
    | zero => trivial
    | succ level => exact fun i hi hp => absurd hp (by simp [habsent i hi])
  · have hnone : findPte (storeWord (zeroFrame ram c) table k (makeEntry c true true)) level c
        vpn = none := by
      have hidx := habsent (tableIndex vpn level) tableIndex_lt
      cases level with
      | zero => simp [findPte, hidx]
      | succ level => simp [findPte, hidx]
    rw [hnone]
    simp [findPte, hv, hpres]

theorem Edit.lift {gone come taken : List Nat} (ho : Opening ram ram₁ level table k c taken)
    (he : Edit ram₁ ram' 512 level c vpn gone come) (hk : tableIndex vpn (level+1) = k)
    (hn : k < n) (hp : Plain ram n (level+1) table)
    (hnodup : (table :: below ram n (level+1) table).Nodup)
    (hfresh : ∀ f ∈ come ++ taken, f ∉ table :: below ram n (level+1) table) :
    Edit ram ram' n (level+1) table vpn gone (come ++ taken) := by
  obtain ⟨hnot,hbelow⟩ := List.nodup_cons.mp hnodup
  have hcome (f : Nat) (hf : f = table ∨ f ∈ below ram n (level+1) table) :
      f ∉ come ∧ f ∉ taken := by
    refine ⟨fun h => hfresh f (List.mem_append_left _ h) (List.mem_cons.mpr hf), fun h => ?_⟩
    exact hfresh f (List.mem_append_right _ h) (List.mem_cons.mpr hf)
  have hkeep (f : Nat) (hf : f ∉ child ram (level+1) table k) (ht : f ∉ taken)
      (hc : f ∉ come) : ram' f = ram₁ f := by
    have hmem : f ∉ c :: below ram₁ 512 level c := fun h => by
      obtain h | h := List.mem_append.mp (ho.frames.mem_iff.mp h)
      · exact ht h
      · exact hf h
    rw [List.mem_cons, not_or] at hmem
    exact he.same f hmem.1 hmem.2 hc
  have htable : ram' table = ram₁ table := by
    obtain ⟨hc,ht⟩ := hcome table (Or.inl rfl)
    exact hkeep table (fun h => hnot (mem_below hn h)) ht hc
  have hothers (i : Nat) (hi : i ≠ k) : ram' table i = ram table i := by
    rw [htable, ho.others i hi]
  obtain ⟨rest,hold,hnew,hsub⟩ := below_edit ram' hn hbelow
    (fun i _ hi => hothers i hi) fun f hf hfk => by
      obtain ⟨hc,ht⟩ := hcome f (Or.inr hf)
      exact (hkeep f hfk ht hc).trans (ho.same f (fun h => hnot (h ▸ hf)) ht)
  have hchild : child ram' (level+1) table k = c :: below ram' 512 level c := by
    rw [child_present (by rw [htable]; exact ho.entry.1), htable, ho.ppn, nodes_succ]
  refine ⟨?_, fun f hf hb hct => ?_, fun i hi hpres => ?_, ?_, fun vpn' hn' hne => ?_,
    fun i hi => hothers i (by omega)⟩
  · rw [List.perm_iff_count]
    intro a
    have h₁ := hold.count_eq a
    have h₂ := hnew.count_eq a
    have h₃ := he.frames.count_eq a
    have h₄ := ho.frames.count_eq a
    rw [hchild] at h₂
    rw [nodes_succ] at h₄
    simp only [List.count_append, List.count_cons] at *
    omega
  · rw [List.mem_append, not_or] at hct
    rw [hkeep f (fun h => hb (mem_below hn h)) hct.2 hct.1, ho.same f hf hct.2]
  · by_cases hik : i = k
    · subst hik
      rw [htable, ho.ppn]
      exact ⟨ho.entry.2, he.plain⟩
    · rw [hothers i hik] at hpres ⊢
      obtain ⟨hl,hplain⟩ := hp i hi hpres
      refine ⟨hl, hplain.congr fun f hf => hsub i hi hik f ?_⟩
      rw [child_present hpres, nodes_succ]
      exact hf
  · simp only [findPte, hk, htable, ho.entry.1, ho.entry.2, ho.ppn]
    simpa using he.mapped
  · by_cases hik : tableIndex vpn' (level+1) = k
    · have hlow : vpn' % 512^(level+1) ≠ vpn % 512^(level+1) := by
        intro heq
        rw [← hk, tableIndex_eq, tableIndex_eq] at hik
        rw [Nat.pow_succ 512 (level+1), Nat.mod_mul, Nat.mod_mul, hik, heq] at hne
        exact hne rfl
      rw [← ho.mapped vpn' hik, ← he.others vpn' tableIndex_lt hlow]
      simp only [findPte, hik, htable, ho.entry.1, ho.entry.2, ho.ppn]
      simp
    · simp only [findPte, hothers _ hik]
      split
      · rfl
      split
      · rfl
      · rename_i hpres _
        have hpres' : present (ram table (tableIndex vpn' (level+1))) = true := by simpa using hpres
        rw [findPte_congr tableIndex_lt fun f hf => hsub _ hn' hik f (by
          rw [child_present hpres', nodes_succ]
          exact hf)]

theorem edit_leaf {e : Nat} {gone come : List Nat} (hn : tableIndex vpn 0 < n)
    (hnodup : (table :: below ram n 0 table).Nodup)
    (hframes : (gone ++ if present e then [entryPpn e] else []).Perm
      (come ++ child ram 0 table (tableIndex vpn 0)))
    (hmapped : present e = (gone == [])) :
    Edit ram (storeWord ram table (tableIndex vpn 0) e) n 0 table vpn gone come := by
  obtain ⟨hnot,hbelow⟩ := List.nodup_cons.mp hnodup
  have hself : storeWord ram table (tableIndex vpn 0) e table (tableIndex vpn 0) = e := by
    rw [storeWord, update_self, update_self]
  have hother (i : Nat) (hi : i ≠ tableIndex vpn 0) :
      storeWord ram table (tableIndex vpn 0) e table i = ram table i := by
    rw [storeWord, update_self, update_of_ne hi]
  have hsame (f : Nat) (hf : f ≠ table) :
      storeWord ram table (tableIndex vpn 0) e f = ram f := update_of_ne hf _ _
  obtain ⟨rest,hold,hnew,-⟩ := below_edit _ hn hbelow (fun i _ hi => hother i hi)
    fun f hf _ => hsame f fun h => hnot (h ▸ hf)
  refine ⟨?_, fun f hf _ _ => hsame f hf, trivial, ?_, fun vpn' _ hne => ?_,
    fun i hi => hother i (by omega)⟩
  · rw [List.perm_iff_count]
    intro a
    have h₁ := hold.count_eq a
    have h₂ := hnew.count_eq a
    have h₃ := hframes.count_eq a
    have hchild : child (storeWord ram table (tableIndex vpn 0) e) 0 table (tableIndex vpn 0) =
        if present e then [entryPpn e] else [] := by
      rw [child, hself]
      rfl
    rw [hchild] at h₂
    simp only [List.count_append] at *
    omega
  · rw [← hmapped]
    simp only [findPte, hself]
    split <;> simp_all
  · have hidx : tableIndex vpn' 0 ≠ tableIndex vpn 0 := by
      rw [tableIndex_eq, tableIndex_eq]
      omega
    simp only [findPte, hother _ hidx]

theorem Edit.perm {gone come come' : List Nat} (h : Edit ram ram' n level table vpn gone come)
    (hp : come.Perm come') : Edit ram ram' n level table vpn gone come' :=
  ⟨h.frames.trans (hp.append_right _), fun f hf hb hc => h.same f hf hb (hp.mem_iff.not.mpr hc),
    h.plain, h.mapped, h.others, h.high⟩

theorem openEntry_opening {pool pool' : List Nat} (hp : Plain ram n (level+1) table) (hk : k < n)
    (hne : ∀ f ∈ pool, f ≠ table ∧ f < 2^36)
    (ho : openEntry ram pool table k (level+1) = some (ram₁, pool')) :
    ∃ c taken, pool = taken ++ pool' ∧ Opening ram ram₁ level table k c taken := by
  unfold openEntry at ho
  by_cases hpres : present (ram table k) = true
  · rw [if_pos hpres, if_neg (by simp [(hp k hk hpres).1])] at ho
    cases ho
    exact ⟨_, [], rfl, opening_table hp hk hpres⟩
  · rw [if_neg hpres] at ho
    cases pool with
    | nil => cases ho
    | cons c pool =>
      cases ho
      obtain ⟨hct,hc⟩ := hne c List.mem_cons_self
      exact ⟨c, [c], rfl, opening_fresh (by simpa using hpres) hct hc⟩

theorem map_edit {ppn : Nat} {u w : Bool} {pool pool' : List Nat}
    (hp : Plain ram n level table) (hn : tableIndex vpn level < n)
    (hnodup : (ppn :: (pool ++ table :: below ram n level table)).Nodup)
    (hsmall : ∀ f ∈ ppn :: pool, f < 2^36) (hfree : findPte ram level table vpn = none)
    (hm : map ram pool table level vpn ppn u w = some (ram', pool')) :
    ∃ taken, pool = taken ++ pool' ∧ Edit ram ram' n level table vpn [] (ppn :: taken) := by
  induction level generalizing ram pool table n with
  | zero =>
    cases hm
    have habsent : present (ram table (tableIndex vpn 0)) = false := by
      simp only [findPte] at hfree
      split at hfree <;> simp_all
    refine ⟨[], rfl, edit_leaf hn ?_ ?_ ?_⟩
    · exact (List.nodup_append.mp (List.nodup_cons.mp hnodup).2).2.1
    · rw [present_makeEntry, if_pos rfl, child_absent habsent,
        entryPpn_makeEntry (hsmall ppn List.mem_cons_self)]
      exact .refl _
    · rw [present_makeEntry]
      rfl
  | succ level ih =>
    simp only [map] at hm
    obtain ⟨hppn,hrest⟩ := List.nodup_cons.mp hnodup
    obtain ⟨hpool,htree,hapart⟩ := List.nodup_append.mp hrest
    split at hm
    · cases hm
    · rename_i ram₁ pool₁ ho
      obtain ⟨c,taken,rfl,hopen⟩ := openEntry_opening hp hn (fun f hf =>
        ⟨hapart f hf table List.mem_cons_self, hsmall f (List.mem_cons_of_mem _ hf)⟩) ho
      rw [hopen.ppn] at hm
      have hnodup₁ : (ppn :: (pool₁ ++ c :: below ram₁ 512 level c)).Nodup := by
        rw [List.nodup_iff_count_le_one] at hnodup ⊢
        intro a
        have h₁ := hnodup a
        have h₂ := (flatMap_split (child ram (level+1) table) hn).count_eq a
        have h₃ := hopen.frames.count_eq a
        rw [nodes_succ] at h₃
        simp only [below, List.count_cons, List.count_append] at *
        omega
      have hfree₁ : findPte ram₁ level c vpn = none := by
        have hnone := hopen.mapped vpn rfl
        rw [hfree] at hnone
        simpa using hnone
      obtain ⟨taken',rfl,he⟩ := ih hopen.plain tableIndex_lt hnodup₁ (fun f hf => by
        obtain rfl | hf := List.mem_cons.mp hf
        · exact hsmall f List.mem_cons_self
        · exact hsmall f (List.mem_cons_of_mem _ (List.mem_append_right _ hf))) hfree₁ hm
      refine ⟨taken ++ taken', (List.append_assoc ..).symm, ?_⟩
      have hlift := he.lift hopen rfl hn hp htree fun f hf hin => by
        obtain hf | hf := List.mem_append.mp hf
        · obtain rfl | hf := List.mem_cons.mp hf
          · exact hppn (List.mem_append_right _ hin)
          · exact hapart f (List.mem_append_right _ (List.mem_append_left _ hf)) f hin rfl
        · exact hapart f (List.mem_append_left _ hf) f hin rfl
      exact hlift.perm (List.Perm.cons ppn List.perm_append_comm)

theorem findPte_present {t i : Nat} (hf : findPte ram level table vpn = some (t, i)) :
    present (ram t i) = true := by
  induction level generalizing table with
  | zero =>
    simp only [findPte] at hf
    split at hf
    · rename_i hpres
      cases hf
      exact hpres
    · cases hf
  | succ level ih =>
    simp only [findPte] at hf
    split at hf
    · cases hf
    split at hf
    · cases hf
    · exact ih hf

theorem clear_edit {t i : Nat} (hp : Plain ram n level table) (hn : tableIndex vpn level < n)
    (hnodup : (table :: below ram n level table).Nodup)
    (hf : findPte ram level table vpn = some (t, i)) :
    Edit ram (storeWord ram t i 0) n level table vpn [entryPpn (ram t i)] [] := by
  induction level generalizing n table with
  | zero =>
    simp only [findPte] at hf
    split at hf
    · rename_i hpres
      cases hf
      refine edit_leaf hn hnodup ?_ (by rw [present_zero]; rfl)
      rw [child_present hpres, present_zero]
      exact .refl _
    · cases hf
  | succ level ih =>
    simp only [findPte] at hf
    split at hf
    · cases hf
    split at hf
    · cases hf
    · rename_i hpres _
      have hpres' : present (ram table (tableIndex vpn (level+1))) = true := by simpa using hpres
      have hopen := opening_table hp hn hpres'
      have hchild : (entryPpn (ram table (tableIndex vpn (level+1))) ::
          below ram 512 level (entryPpn (ram table (tableIndex vpn (level+1))))).Nodup := by
        have hsplit := flatMap_split (child ram (level+1) table) hn
        have hnodup' := hsplit.nodup_iff.mp (List.nodup_cons.mp hnodup).2
        rw [child_present hpres', nodes_succ] at hnodup'
        exact (List.nodup_append.mp hnodup').1
      exact (ih hopen.plain tableIndex_lt hchild hf).lift hopen rfl hn hp hnodup (by simp)

theorem inTree_nodes (hd : level ≤ depth) (h : InTree ram level table f) :
    f ∈ nodes ram depth table := by
  induction level generalizing depth table with
  | zero =>
    rw [InTree] at h
    rw [h]
    exact nodes_self
  | succ level ih =>
    cases depth with
    | zero => omega
    | succ depth =>
      rw [nodes_succ]
      obtain rfl | ⟨i,hi,ht,hin⟩ := h
      · exact List.mem_cons_self
      · refine List.mem_cons_of_mem _ (mem_below hi ?_)
        rw [child_present ht.1]
        exact ih (by omega) hin

theorem inNode_below (hd : level ≤ depth) (h : InNode ram n level table f) :
    f ∈ table :: below ram n depth table := by
  obtain rfl | ⟨i,hi,ht,hin⟩ := h
  · exact List.mem_cons_self
  · refine List.mem_cons_of_mem _ (mem_below hi ?_)
    rw [child_present ht.1]
    exact inTree_nodes hd hin

theorem plain_open (h : Open ram level table) : Plain ram 512 level table := by
  induction level generalizing table with
  | zero => trivial
  | succ level ih =>
    intro i hi hpres
    obtain ⟨hl,-,-,hchild⟩ := h i hi hpres
    exact ⟨hl, ih hchild⟩

theorem plain_openNode (h : OpenNode ram n level table) : Plain ram n (level+1) table := by
  intro i hi hpres
  obtain ⟨hl,-,-,hchild⟩ := h i hi hpres
  exact ⟨hl, plain_open hchild⟩

theorem findPte_inTree {t i : Nat} (hf : findPte ram level table vpn = some (t, i)) :
    InTree ram level table t := by
  induction level generalizing table with
  | zero =>
    simp only [findPte] at hf
    split at hf
    · cases hf
      rfl
    · cases hf
  | succ level ih =>
    simp only [findPte] at hf
    split at hf
    · cases hf
    split at hf
    · cases hf
    · rename_i hpres hl
      exact Or.inr ⟨_, tableIndex_lt, ⟨by simpa using hpres, by simpa using hl⟩, ih hf⟩

theorem map_cleared {t i ppn : Nat} {u w : Bool} {pool : List Nat}
    (hn : tableIndex vpn level < n) (hnodup : (table :: below ram n level table).Nodup)
    (hf : findPte ram level table vpn = some (t, i)) :
    map (storeWord ram t i 0) pool table level vpn ppn u w =
      map ram pool table level vpn ppn u w := by
  induction level generalizing n table with
  | zero =>
    simp only [findPte] at hf
    split at hf
    · cases hf
      simp only [map, storeWord, update_self, update_idem]
    · cases hf
  | succ level ih =>
    simp only [findPte] at hf
    split at hf
    · cases hf
    split at hf
    · cases hf
    · rename_i hpres hl
      have hpres' : present (ram table (tableIndex vpn (level+1))) = true := by simpa using hpres
      have hin : t ∈ nodes ram (level+1) (entryPpn (ram table (tableIndex vpn (level+1)))) :=
        inTree_nodes (by omega) (findPte_inTree hf)
      obtain ⟨hnot,hbelow⟩ := List.nodup_cons.mp hnodup
      have hchild := (flatMap_split (child ram (level+1) table) hn).nodup_iff.mp hbelow
      rw [child_present hpres', nodes_succ] at hchild
      -- the entry on the way is in another table than the leaf entry
      have hne : table ≠ t := fun heq => hnot (mem_below hn (by
        rw [child_present hpres', heq]
        exact heq ▸ hin))
      have hsame : storeWord ram t i 0 table = ram table := update_of_ne hne _ _
      simp only [map, openEntry, hsame, hpres', hl, if_true, if_false, Bool.false_eq_true]
      exact ih tableIndex_lt (List.nodup_append.mp hchild).1 hf

/-! Tables without pages. -/

theorem findPte_low {vpn' : Nat} (h : vpn % 512^(level+1) = vpn' % 512^(level+1)) :
    findPte ram level table vpn = findPte ram level table vpn' := by
  induction level generalizing table with
  | zero =>
    have hidx : tableIndex vpn 0 = tableIndex vpn' 0 := by
      rw [tableIndex_eq, tableIndex_eq]
      omega
    simp only [findPte, hidx]
  | succ level ih =>
    have hidx : tableIndex vpn (level+1) = tableIndex vpn' (level+1) := by
      rw [tableIndex_eq, tableIndex_eq, ← Nat.mod_mul_right_div_self, ← Nat.mod_mul_right_div_self,
        ← Nat.pow_succ, h]
    have hlow : vpn % 512^(level+1) = vpn' % 512^(level+1) := by
      have hdvd : 512^(level+1) ∣ 512^(level+1+1) := Nat.pow_dvd_pow 512 (Nat.le_succ _)
      rw [← Nat.mod_mod_of_dvd vpn hdvd, h, Nat.mod_mod_of_dvd vpn' hdvd]
    simp only [findPte, hidx, ih hlow]

theorem child_unmapped {i : Nat} (vpn : Nat) (hp : Plain ram n (level+1) table) (hn : n ≤ 512)
    (hi : i < n) (h : ∀ vpn, tableIndex vpn (level+1) < n → findPte ram (level+1) table vpn = none)
    (hpres : present (ram table i) = true) :
    findPte ram level (entryPpn (ram table i)) vpn = none := by
  have hpos : 0 < 512^(level+1) := Nat.pow_pos (by decide)
  have hlt := Nat.mod_lt vpn hpos
  have hidx : tableIndex (vpn % 512^(level+1)+512^(level+1)*i) (level+1) = i := by
    rw [tableIndex_eq, Nat.add_mul_div_left _ _ hpos, Nat.div_eq_of_lt hlt, Nat.zero_add]
    exact Nat.mod_eq_of_lt (by omega)
  have hnone := h _ (hidx.symm ▸ hi)
  simp only [findPte, hidx, hpres, (hp i hi hpres).1] at hnone
  rw [← hnone]
  refine findPte_low ?_
  rw [Nat.add_mul_mod_self_left, Nat.mod_mod]

theorem below_unmapped (hp : Plain ram n (level+1) table) (hn : n ≤ 512)
    (h : ∀ vpn, tableIndex vpn (level+1) < n → findPte ram (level+1) table vpn = none) :
    below ram n (level+1) table = below ram n level table := by
  induction level generalizing n table with
  | zero =>
    refine List.flatMap_congr fun i hi => ?_
    have hlt := List.mem_range.mp hi
    by_cases hpres : present (ram table i) = true
    · rw [child_present hpres, child_present hpres, nodes_succ, below_absent fun j hj => ?_]
      · rfl
      · have hnone := child_unmapped j hp hn hlt h hpres
        have hidx : tableIndex j 0 = j := by
          rw [tableIndex_eq]
          omega
        simp only [findPte, hidx] at hnone
        split at hnone
        · cases hnone
        · simp_all
    · rw [child_absent (by simpa using hpres), child_absent (by simpa using hpres)]
  | succ level ih =>
    refine List.flatMap_congr fun i hi => ?_
    have hlt := List.mem_range.mp hi
    by_cases hpres : present (ram table i) = true
    · rw [child_present hpres, child_present hpres, nodes_succ, nodes_succ,
        ih (hp i hlt hpres).2 (Nat.le_refl 512) fun vpn _ => child_unmapped vpn hp hn hlt h hpres]
    · rw [child_absent (by simpa using hpres), child_absent (by simpa using hpres)]

end NetKernel.Ownership
