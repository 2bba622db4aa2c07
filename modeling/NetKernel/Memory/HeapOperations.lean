import Mathlib.Algebra.GroupWithZero.Nat
import Mathlib.Data.List.Chain
import NetKernel.Memory.HeapSearch

/-! The invariant between calls: no hole, every available block on the free list, no two
of them neighbours. `heap::init` establishes it, `malloc` and `free` keep it. -/
namespace NetKernel.Heaps
open Function LinkedList Tiling

/-- One of two neighbours is taken. -/
def Apart (a b : Block) : Prop := a.kind = .taken ∨ b.kind = .taken

structure HeapInv (h : Heap) (blocks : List Block) (free : List Nat) : Prop where
  layout : Layout h blocks free
  noHole : ∀ b ∈ blocks, b.kind ≠ .hole
  complete : ∀ b ∈ blocks, b.kind = .avail → b.start ∈ free
  separated : blocks.IsChain Apart
  first : blocks.head? = some ⟨0, 2, .taken⟩
  last : blocks.getLast? = some ⟨h.len-2, 2, .taken⟩
  four : ∀ b ∈ blocks, b ≠ ⟨0, 2, .taken⟩ → b ≠ ⟨h.len-2, 2, .taken⟩ → 4 ≤ b.size
  aligned : h.array % 16 = 8
  space : h.array+8*h.len ≤ 2^64

/-! The words of a block. -/

section Words
variable {h : Heap} {blocks : List Block} {free : List Nat} {b : Block}

theorem word_avail (L : Layout h blocks free) (hb : b ∈ blocks) (hk : b.kind = .avail) :
    h.isTaken b.start = false ∧ h.isAvail b.start = true ∧ h.size b.start = b.size := by
  have hw := (L.tagged b hb b.size (by rw [Block.tag, hk]; rfl)).1
  have he := L.even b hb
  simp only [Heap.isTaken, Heap.isAvail, Heap.size, hw, decide_eq_true_eq, decide_eq_false_iff_not]
  omega

theorem word_taken (L : Layout h blocks free) (hb : b ∈ blocks) (hk : b.kind = .taken) :
    h.isAvail b.start = false ∧ h.size b.start = b.size := by
  have hw := (L.tagged b hb (b.size+1) (by rw [Block.tag, hk]; rfl)).1
  have he := L.even b hb
  simp only [Heap.isAvail, Heap.size, hw, decide_eq_false_iff_not]
  omega

theorem headerFromFooter_eq (L : Layout h blocks free) (hb : b ∈ blocks) (hk : b.kind ≠ .hole) :
    h.headerFromFooter (b.start+b.size-1) = b.start := by
  have he := L.even b hb
  have h2 := (L.room b hb).1
  have hbound := L.bounds hb
  have hsmall := L.small
  have hs : h.size (b.start+b.size-1) = b.size := by
    cases hkind : b.kind with
    | hole => exact absurd hkind hk
    | avail =>
      rw [Heap.size, (L.tagged b hb b.size (by rw [Block.tag, hkind]; rfl)).2]
      omega
    | taken =>
      rw [Heap.size, (L.tagged b hb (b.size+1) (by rw [Block.tag, hkind]; rfl)).2]
      omega
  simp only [Heap.headerFromFooter, hs, sub64, wrap]
  omega

end Words

theorem ofInt_toInt (n : Nat) (hn : n < 2^31) : ofInt (toInt n) = n := by
  simp only [toInt, ofInt]
  rw [if_pos (by omega), Nat.mod_eq_of_lt (by omega)]
  omega

theorem HeapInv.usable {h : Heap} {blocks : List Block} {free : List Nat}
    (I : HeapInv h blocks free) : Usable h free := by
  have L := I.layout
  have hword : ∀ b ∈ blocks, b.kind = .avail → h.word b.start = b.size := fun b hb hk =>
    (L.tagged b hb b.size (by rw [Block.tag, hk]; rfl)).1
  refine ⟨L.links, L.nodup, fun x hx => ?_, fun x hx y hy hne => ?_, I.space⟩
  · obtain ⟨b,hb,hk,rfl⟩ := L.freeAvail x hx
    rw [hword b hb hk]
    exact ⟨(L.room b hb).2 hk, L.even b hb, L.bounds hb⟩
  · obtain ⟨b,hb,hk,rfl⟩ := L.freeAvail x hx
    obtain ⟨c,hc,hck,rfl⟩ := L.freeAvail y hy
    rw [hword b hb hk, hword c hc hck]
    exact L.apart hb hc (by rintro rfl; exact hne rfl)

/-! Exchanging blocks between two taken ones. -/

theorem mem_around {α : Type*} {pre M rest : List α} {x c : α} (h : c ∈ pre ++ x :: rest) :
    c ∈ pre ++ x :: (M ++ rest) := by
  simp only [List.mem_append, List.mem_cons] at h ⊢
  rcases h with h | h | h
  · exact Or.inl h
  · exact Or.inr (Or.inl h)
  · exact Or.inr (Or.inr (Or.inr h))

theorem mem_gap {α : Type*} {pre M rest : List α} {x c : α} (h : c ∈ pre ++ x :: (M ++ rest)) :
    c ∈ M ∨ c ∈ pre ++ x :: rest := by
  simp only [List.mem_append, List.mem_cons] at h ⊢
  rcases h with h | h | h | h
  · exact Or.inr (Or.inl h)
  · exact Or.inr (Or.inr (Or.inl h))
  · exact Or.inl h
  · exact Or.inr (Or.inr (Or.inr h))

section Exchange
variable {h h' : Heap} {pre post M M' : List Block} {free free' : List Nat} {x y b : Block}

theorem HeapInv.exchange (I : HeapInv h (pre ++ x :: (M ++ y :: post)) free)
    (harray : h'.array = h.array) (hlen : h'.len = h.len)
    (L : Layout h' (pre ++ x :: (M' ++ y :: post)) free')
    (hx : x.kind = .taken) (hy : y.kind = .taken) (hM : M'.IsChain Apart)
    (hhole : ∀ b ∈ M', b.kind ≠ .hole)
    (hfour : ∀ b ∈ M', 4 ≤ b.size)
    (hfree : ∀ b ∈ M', b.kind = .avail → b.start ∈ free')
    (hkeep : ∀ b ∈ pre ++ x :: (y :: post), b.kind = .avail → b.start ∈ free') :
    HeapInv h' (pre ++ x :: (M' ++ y :: post)) free' := by
  have hcases : ∀ b ∈ pre ++ x :: (M' ++ y :: post), b ∈ M' ∨ b ∈ pre ++ x :: (y :: post) :=
    fun _ hb => mem_gap hb
  have hold : ∀ b ∈ pre ++ x :: (y :: post), b ∈ pre ++ x :: (M ++ y :: post) :=
    fun _ hb => mem_around hb
  refine ⟨L, fun b hb => ?_, fun b hb hk => ?_, ?_, ?_, ?_, fun b hb hf hl => ?_, ?_, ?_⟩
  · cases hcases b hb with
    | inl hn => exact hhole b hn
    | inr ho => exact I.noHole b (hold b ho)
  · cases hcases b hb with
    | inl hn => exact hfree b hn hk
    | inr ho => exact hkeep b ho hk
  · obtain ⟨hpre,hrest⟩ := List.isChain_split.mp I.separated
    have hpost : (y :: post).IsChain Apart := (List.isChain_cons_split.mp hrest).2
    refine List.isChain_split.mpr ⟨hpre, ?_⟩
    refine List.isChain_cons_split.mpr ⟨?_, hpost⟩
    rw [← List.cons_append]
    refine List.isChain_append.mpr ⟨?_, List.isChain_singleton _, ?_⟩
    · refine List.isChain_cons.mpr ⟨fun b _ => Or.inl hx, hM⟩
    · intro a _ b hb
      obtain rfl : y = b := by simpa using hb
      exact Or.inr hy
  · rw [← I.first]
    simp [List.head?_append]
  · rw [hlen, ← I.last]
    simp [List.getLast?_append, List.getLast?_cons]
  · cases hcases b hb with
    | inl hn => exact hfour b hn
    | inr ho => exact I.four b (hold b ho) hf (by rw [← hlen]; exact hl)
  · rw [harray]; exact I.aligned
  · rw [harray, hlen]; exact I.space

theorem HeapInv.neighbours {blocks : List Block} (I : HeapInv h blocks free) (hb : b ∈ blocks)
    (hf : b ≠ ⟨0, 2, .taken⟩) (hl : b ≠ ⟨h.len-2, 2, .taken⟩) :
    ∃ pre x y post, blocks = pre ++ x :: ([b] ++ y :: post) := by
  obtain ⟨u,v,rfl⟩ := List.append_of_mem hb
  have hu : u ≠ [] := by
    rintro rfl
    exact hf (Option.some.inj I.first)
  have hv : v ≠ [] := by
    rintro rfl
    refine hl (Option.some.inj ?_)
    rw [← I.last]
    simp
  obtain ⟨y,post,rfl⟩ := List.exists_cons_of_ne_nil hv
  refine ⟨u.dropLast, u.getLast hu, y, post, ?_⟩
  conv_lhs => rw [← List.dropLast_append_getLast hu]
  simp

theorem HeapInv.taken_neighbours (I : HeapInv h (pre ++ x :: ([b] ++ y :: post)) free)
    (hk : b.kind = .avail) : x.kind = .taken ∧ y.kind = .taken := by
  obtain ⟨-,hrest⟩ := List.isChain_split.mp I.separated
  obtain ⟨hxb,hrest⟩ := List.isChain_cons_cons.mp hrest
  obtain ⟨hby,-⟩ := List.isChain_cons_cons.mp hrest
  refine ⟨hxb.resolve_right ?_, hby.resolve_left ?_⟩
  · rw [hk]; exact Kind.noConfusion
  · rw [hk]; exact Kind.noConfusion

end Exchange

/-! Taken blocks: `malloc` adds one, `free` takes one away. -/

def takenBlocks (blocks : List Block) : List Block := blocks.filter (·.kind = .taken)

theorem takenBlocks_exchange (pre M rest : List Block) (x : Block) :
    (takenBlocks (pre ++ x :: (M ++ rest))).Perm
      (takenBlocks M ++ takenBlocks (pre ++ x :: rest)) := by
  simp only [takenBlocks]
  rw [← List.filter_append]
  apply List.Perm.filter
  calc pre ++ x :: (M ++ rest) = (pre ++ [x]) ++ (M ++ rest) := by simp
    _ |>.Perm (M ++ ((pre ++ [x]) ++ rest)) := List.perm_append_comm_assoc _ _ _
    _ = M ++ (pre ++ x :: rest) := by simp

section Malloc
variable {h : Heap} {blocks pre post : List Block} {free l r : List Nat} {it mx entries : Nat}

theorem toInt_eq (n : Nat) (hn : n < 2^31) : toInt n = (n : Int) := by
  rw [toInt, if_pos (by omega), Nat.mod_eq_of_lt (by omega)]

theorem takeBlock_spec (L : Layout h (pre ++ ⟨it, mx, .avail⟩ :: post) (l ++ it :: r))
    (he : 2 ∣ entries) (h4 : 4 ≤ entries) (hle : entries ≤ mx) :
    ∃ h', takeBlock h entries mx it = .ok h' ∧ SameHeap h h' ∧
      (Layout h' (pre ++ ⟨it, mx, .taken⟩ :: post) (l ++ r) ∨ 4 ≤ mx-entries ∧
        Layout h' (pre ++ ⟨it, entries, .taken⟩ :: ⟨it+entries, mx-entries, .avail⟩ :: post)
          ((it+entries) :: (l ++ r))) := by
  have hmem : (⟨it, mx, .avail⟩ : Block) ∈ pre ++ ⟨it, mx, .avail⟩ :: post := by simp
  have hb : it+mx ≤ h.len := L.bounds hmem
  have hsmall := L.small
  have hmx : 2 ∣ mx := L.even _ hmem
  have hit : it ∉ l ++ r := by
    have := L.nodup
    rw [List.nodup_middle] at this
    exact (List.nodup_cons.mp this).1
  have R := remove_layout L
  have hsub : sub64 mx entries = mx-entries := by
    simp only [sub64]
    omega
  have hint := toInt_eq (mx-entries) (by omega)
  have hback := ofInt_toInt (mx-entries) (by omega)
  simp only [takeBlock, hsub]
  by_cases hx : 4 ≤ mx-entries
  · rw [if_pos (by omega), hback]
    have E : Layout (h.remove it) (pre ++ ⟨it, entries, .hole⟩ ::
        ⟨it+entries, mx-entries, .hole⟩ :: post) (l ++ r) := by
      refine R.erase (M := [⟨it, mx, .avail⟩])
        [⟨it, entries, .hole⟩, ⟨it+entries, mx-entries, .hole⟩] ?_ ?_ ?_
      · intro b hb
        rw [List.mem_singleton.mp hb]
        exact hit
      · rintro lo hi ⟨rfl,rfl⟩
        refine ⟨rfl, rfl, ?_⟩
        change it+entries+(mx-entries) = it+mx
        omega
      · intro b hb
        simp only [List.mem_cons, List.not_mem_nil, or_false] at hb
        rcases hb with rfl | rfl
        · exact ⟨rfl, he, show 2 ≤ entries by omega⟩
        · exact ⟨rfl, show 2 ∣ mx-entries by omega, show 2 ≤ mx-entries by omega⟩
    obtain ⟨h1,e1,S1,L1⟩ := makeTaken_layout E
    rw [show pre ++ ⟨it, entries, .taken⟩ :: ⟨it+entries, mx-entries, .hole⟩ :: post =
      (pre ++ [⟨it, entries, .taken⟩]) ++ ⟨it+entries, mx-entries, .hole⟩ :: post by simp] at L1
    obtain ⟨h2,e2,S2,L2⟩ := makeAvail_layout L1 hx (by omega)
    rw [e1]
    refine ⟨h2, e2, (remove_same h it).trans (S1.trans S2), Or.inr ⟨hx, ?_⟩⟩
    simpa using L2
  · rw [if_neg (by omega)]
    have E : Layout (h.remove it) (pre ++ ⟨it, mx, .hole⟩ :: post) (l ++ r) := by
      refine R.erase (M := [⟨it, mx, .avail⟩]) [⟨it, mx, .hole⟩] ?_ ?_ ?_
      · intro b hb
        rw [List.mem_singleton.mp hb]
        exact hit
      · exact fun _ _ ht => ht
      · intro b hb
        rw [List.mem_singleton.mp hb]
        exact ⟨rfl, hmx, show 2 ≤ mx by omega⟩
    obtain ⟨h1,e1,S1,L1⟩ := makeTaken_layout E
    exact ⟨h1, e1, (remove_same h it).trans S1, Or.inl L1⟩

theorem entriesFor_spec (n : Nat) : 2 ∣ entriesFor n ∧ 4 ≤ entriesFor n := by
  simp only [entriesFor]
  split <;> split <;> omega

theorem entriesFor_bytes {n : Nat} (hn : n+7 < 2^64) : n ≤ 8*(entriesFor n-2) := by
  have hw : wrap (n+7) = n+7 := Nat.mod_eq_of_lt hn
  simp only [entriesFor, hw]
  split <;> split <;> omega

theorem available_not_end {b : Block} (hk : b.kind = .avail) (i : Nat) : b ≠ ⟨i, 2, .taken⟩ := by
  rintro rfl
  cases hk

/-- Taking an available block makes one new taken block there, of `entries` words or more. -/
theorem takeFound_spec (I : HeapInv h blocks free) {b : Block} (hb : b ∈ blocks)
    (hk : b.kind = .avail) (he : 2 ∣ entries) (h4 : 4 ≤ entries) (hle : entries ≤ b.size) :
    ∃ h' blocks' free' c, takeBlock h entries b.size b.start = .ok h' ∧ SameHeap h h' ∧
      HeapInv h' blocks' free' ∧ c.kind = .taken ∧ c.start = b.start ∧ entries ≤ c.size ∧
      (takenBlocks blocks').Perm (c :: takenBlocks blocks) := by
  obtain ⟨pre,x,y,post,rfl⟩ := I.neighbours hb (available_not_end hk _) (available_not_end hk _)
  obtain ⟨hx,hy⟩ := I.taken_neighbours hk
  obtain ⟨l,r,rfl⟩ := List.append_of_mem (I.complete b hb hk)
  have L : Layout h ((pre ++ [x]) ++ ⟨b.start, b.size, .avail⟩ :: y :: post)
      (l ++ b.start :: r) := by
    have hb' : b = ⟨b.start, b.size, .avail⟩ := by rw [← hk]
    rw [← hb']
    simpa using I.layout
  have hkeep : ∀ c ∈ pre ++ x :: (y :: post), c.kind = .avail → c.start ∈ l ++ r := by
    intro c hc hck
    have hin := I.complete c (mem_around hc) hck
    have hne := L.start_ne (c := c) (by simpa using hc)
    simp only [List.mem_append, List.mem_cons] at hin ⊢
    rcases hin with hin | hin | hin
    · exact Or.inl hin
    · exact absurd hin hne
    · exact Or.inr hin
  have hperm := takenBlocks_exchange pre [b] (y :: post) x
  have hnone : takenBlocks [b] = [] := by simp [takenBlocks, hk]
  rw [hnone, List.nil_append] at hperm
  obtain ⟨h',hr,S,hcase⟩ := takeBlock_spec L he h4 hle
  cases hcase with
  | inl hwhole =>
    refine ⟨h', pre ++ x :: ([⟨b.start, b.size, .taken⟩] ++ y :: post), l ++ r,
      ⟨b.start, b.size, .taken⟩, hr, S, ?_, rfl, rfl, hle, ?_⟩
    · refine I.exchange S.array S.len (by simpa using hwhole) hx hy (List.isChain_singleton _)
        ?_ ?_ ?_ hkeep
      · simp
      · simp only [List.mem_singleton, forall_eq]; omega
      · simp
    · exact (takenBlocks_exchange pre _ (y :: post) x).trans (List.Perm.cons _ hperm.symm)
  | inr hcut =>
    obtain ⟨hroom,hcut⟩ := hcut
    refine ⟨h', pre ++ x :: ([⟨b.start, entries, .taken⟩,
      ⟨b.start+entries, b.size-entries, .avail⟩] ++ y :: post), (b.start+entries) :: (l ++ r),
      ⟨b.start, entries, .taken⟩, hr, S, ?_, rfl, rfl, Nat.le_refl _, ?_⟩
    · refine I.exchange S.array S.len (by simpa using hcut) hx hy ?_ ?_ ?_ ?_ fun c hc hck =>
        List.mem_cons_of_mem _ (hkeep c hc hck)
      · exact List.isChain_pair.mpr (Or.inl rfl)
      · simp
      · simp only [List.mem_cons, List.not_mem_nil, or_false, forall_eq_or_imp, forall_eq]
        exact ⟨h4, hroom⟩
      · simp
    · exact (takenBlocks_exchange pre _ (y :: post) x).trans (List.Perm.cons _ hperm.symm)

theorem HeapInv.free_block (I : HeapInv h blocks free) {x : Nat} (hx : x ∈ free) :
    ∃ b ∈ blocks, b.kind = .avail ∧ b.start = x ∧ h.size x = b.size := by
  obtain ⟨b,hb,hk,rfl⟩ := I.layout.freeAvail x hx
  exact ⟨b, hb, hk, rfl, (word_avail I.layout hb hk).2.2⟩

/-- `malloc` returns a pointer into a new taken block, or null and the heap as it was. -/
theorem malloc_spec (I : HeapInv h blocks free) (n : Nat) (hn : n < 2^31) (h0 : n ≠ 0) :
    malloc h n = .ok (0, h) ∨ ∃ h' blocks' free' b, malloc h n = .ok (h'.pointer b.start,
        if h'.pointer b.start = 0 then h' else { h' with nMalloc := wrap (h'.nMalloc+1) }) ∧
      SameHeap h h' ∧ HeapInv h' blocks' free' ∧ b.kind = .taken ∧ n ≤ 8*(b.size-2) ∧
      (takenBlocks blocks').Perm (b :: takenBlocks blocks) := by
  have hbytes := entriesFor_bytes (n := n) (by omega)
  obtain ⟨he,h4⟩ := entriesFor_spec n
  cases malloc_search I.usable h0 with
  | inl hnull => exact Or.inl hnull.1
  | inr hfound =>
    obtain ⟨x,hx,hle,-,hm⟩ := hfound
    obtain ⟨b,hb,hk,rfl,hsize⟩ := I.free_block ((BestFit.scanned_initial _ _ _ _).subset hx)
    rw [hsize] at hle hm
    obtain ⟨h',blocks',free',c,hr,S,I',hck,hcs,hce,hperm⟩ := takeFound_spec I hb hk he h4 hle
    rw [hr] at hm
    refine Or.inr ⟨h', blocks', free', c, ?_, S, I', hck, by omega, hperm⟩
    rw [hcs]
    exact hm

end Malloc

section Free
variable {h : Heap} {blocks pre post : List Block} {free : List Nat} {b l r : Block}

theorem layout_nFree (L : Layout h blocks free) (n : Nat) :
    Layout { h with nFree := n } blocks free :=
  ⟨L.small, L.tiles, L.even, L.room, L.tagged, L.links, L.nodup, L.freeAvail⟩

theorem taken_not_free (L : Layout h blocks free) (hb : b ∈ blocks) (hk : b.kind = .taken) :
    b.start ∉ free := by
  intro hf
  obtain ⟨c,hc,hck,hs⟩ := L.freeAvail _ hf
  have hc2 := (L.room c hc).1
  have hb2 := (L.room b hb).1
  have := L.apart hc hb (by rintro rfl; rw [hk] at hck; cases hck)
  omega

theorem absorb_spec (L : Layout h blocks free) (hb : b ∈ blocks) (hk : b.kind = .avail)
    (hf : b.start ∈ free) (sz : Nat) (hsz : sz+b.size < 2^31) :
    ∃ h' free', absorb h (toInt b.start) (toInt sz) = (h', toInt (sz+b.size)) ∧ SameHeap h h' ∧
      Layout h' blocks free' ∧ ∀ z, z ∈ free' ↔ z ∈ free ∧ z ≠ b.start := by
  obtain ⟨u,v,rfl⟩ := List.append_of_mem hf
  have hbound := L.bounds hb
  have hsmall := L.small
  have hback := ofInt_toInt b.start (by have := (L.room b hb).1; omega)
  have R := remove_layout L
  obtain ⟨-,-,hs⟩ := word_avail R hb hk
  have hnot : b.start ∉ u ++ v := by
    have := L.nodup
    rw [List.nodup_middle] at this
    exact (List.nodup_cons.mp this).1
  refine ⟨h.remove b.start, u ++ v, ?_, remove_same h _, R, fun z => ?_⟩
  · simp only [absorb, hback, hs, ofInt_toInt sz (by omega)]
    rw [wrap, Nat.mod_eq_of_lt (by omega)]
  · simp only [List.mem_append, List.mem_cons] at hnot ⊢
    constructor
    · intro hz
      refine ⟨?_, by rintro rfl; exact hnot hz⟩
      cases hz with
      | inl hz => exact Or.inl hz
      | inr hz => exact Or.inr (Or.inr hz)
    · rintro ⟨hz | hz | hz,hne⟩
      · exact Or.inl hz
      · exact absurd hz hne
      · exact Or.inr hz

theorem merge_spec {M : List Block} {i n : Nat} (L : Layout h (pre ++ (M ++ post)) free)
    (hM : ∀ c ∈ M, c.start ∉ free) (hne : M ≠ [])
    (ht : Tiles Block.start Block.size i M (i+n)) (h4 : 4 ≤ n) (he : 2 ∣ n) (h0 : i ≠ 0) :
    ∃ h', h.makeAvail i n = .ok h' ∧ SameHeap h h' ∧
      Layout h' (pre ++ ⟨i, n, .avail⟩ :: post) (i :: free) := by
  refine makeAvail_layout (L.erase [⟨i, n, .hole⟩] hM ?_ ?_) h4 h0
  · intro lo hi hlo
    obtain ⟨m,ms,rfl⟩ := List.exists_cons_of_ne_nil hne
    obtain ⟨rfl,hms⟩ := hlo
    obtain ⟨rfl,hms'⟩ := ht
    exact ⟨rfl, (hms'.unique hms).symm⟩
  · intro c hc
    rw [List.mem_singleton.mp hc]
    exact ⟨rfl, he, by simp only; omega⟩

/-- The blocks a neighbour contributes: none if it is taken, itself if it is available. -/
def Group (g : Block) (G : List Block) : Prop :=
  g.kind = .taken ∧ G = [] ∨ g.kind = .avail ∧ G = [g]

theorem Group.sum_le {g : Block} {G : List Block} (h : Group g G) :
    (G.map Block.size).sum ≤ g.size := by
  rcases h with ⟨-,rfl⟩ | ⟨-,rfl⟩ <;> simp

theorem Group.even {g : Block} {G : List Block} (h : Group g G) (hg : 2 ∣ g.size) :
    2 ∣ (G.map Block.size).sum := by
  rcases h with ⟨-,rfl⟩ | ⟨-,rfl⟩
  · simp
  · simpa using hg

theorem Group.taken {g : Block} {G : List Block} (h : Group g G) : takenBlocks G = [] := by
  rcases h with ⟨-,rfl⟩ | ⟨hk,rfl⟩
  · rfl
  · simp [takenBlocks, hk]

theorem HeapInv.left_group (I : HeapInv h (pre ++ l :: post) free) :
    ∃ pre' x G, pre ++ [l] = pre' ++ x :: G ∧ x.kind = .taken ∧ Group l G := by
  cases hk : l.kind with
  | hole => exact absurd hk (I.noHole l (by simp))
  | taken => exact ⟨pre, l, [], rfl, hk, Or.inl ⟨hk, rfl⟩⟩
  | avail =>
    have hne : pre ≠ [] := by
      rintro rfl
      exact available_not_end hk 0 (Option.some.inj I.first)
    obtain ⟨pre',x,rfl⟩ : ∃ pre' x, pre = pre' ++ [x] :=
      ⟨_, _, (List.dropLast_append_getLast hne).symm⟩
    refine ⟨pre', x, [l], by simp, ?_, Or.inr ⟨hk, rfl⟩⟩
    have hs : Apart x l := by
      have := I.separated
      rw [List.append_assoc] at this
      exact (List.isChain_append_cons_cons.mp this).2.1
    exact hs.resolve_right (by rw [hk]; exact Kind.noConfusion)

theorem HeapInv.right_group (I : HeapInv h (pre ++ r :: post) free) :
    ∃ G y post', r :: post = G ++ y :: post' ∧ y.kind = .taken ∧ Group r G := by
  cases hk : r.kind with
  | hole => exact absurd hk (I.noHole r (by simp))
  | taken => exact ⟨[], r, post, rfl, hk, Or.inl ⟨hk, rfl⟩⟩
  | avail =>
    have hne : post ≠ [] := by
      rintro rfl
      refine available_not_end hk (h.len-2) (Option.some.inj ?_)
      rw [← I.last]
      simp
    obtain ⟨y,post',rfl⟩ := List.exists_cons_of_ne_nil hne
    refine ⟨[r], y, post', rfl, ?_, Or.inr ⟨hk, rfl⟩⟩
    have hs := (List.isChain_append_cons_cons.mp I.separated).2.1
    exact hs.resolve_left (by rw [hk]; exact Kind.noConfusion)

theorem stage_spec (L : Layout h blocks free) {G : List Block} {g : Block} (hg : g ∈ blocks)
    (hG : Group g G) (hfree : g.kind = .avail → g.start ∈ free) (sz : Nat) (hsz : sz+g.size < 2^31) :
    ∃ h' free' sz', (if h.isAvail g.start = true then absorb h (toInt g.start) (toInt sz)
        else (h, toInt sz)) = (h', toInt sz') ∧ SameHeap h h' ∧ Layout h' blocks free' ∧
      sz' = sz+(G.map Block.size).sum ∧ ∀ z, z ∈ free' ↔ z ∈ free ∧ ∀ c ∈ G, z ≠ c.start := by
  rcases hG with ⟨hk,rfl⟩ | ⟨hk,rfl⟩
  · rw [(word_taken L hg hk).1]
    exact ⟨h, free, sz, rfl, .refl h, L, by simp, by simp⟩
  · rw [(word_avail L hg hk).2.1]
    obtain ⟨h',free',e,S,L',hz⟩ := absorb_spec L hg hk (hfree hk) sz hsz
    exact ⟨h', free', sz+g.size, e, S, L', by simp, by simpa using hz⟩

theorem pointer_eq (I : HeapInv h blocks free) (hb : b ∈ blocks) :
    h.pointer b.start = h.array+8*(b.start+1) := by
  have h2 := (I.layout.room b hb).1
  have hbound := I.layout.bounds hb
  have hspace := I.space
  rw [Heap.pointer, wrap, Nat.mod_eq_of_lt (by omega)]

theorem HeapInv.adjacent (I : HeapInv h (pre ++ l :: ([b] ++ r :: post)) free) :
    b.start = l.start+l.size ∧ r.start = b.start+b.size := by
  have ht : Tiles Block.start Block.size 0 ((pre ++ [l]) ++ b :: r :: post) h.len := by
    simpa using I.layout.tiles
  exact ⟨I.layout.tiles.adjacent, ht.adjacent⟩

theorem free_eq {hc : Heap} (I : HeapInv h (pre ++ l :: ([b] ++ r :: post)) free)
    (hk : b.kind = .taken) (hhc : { h with nFree := wrap (h.nFree+1) } = hc) :
    Heaps.free h (h.pointer b.start) =
      (let s := if hc.isAvail l.start = true then absorb hc (toInt l.start) (toInt b.size)
        else (hc, toInt b.size)
      let i := if hc.isAvail l.start = true then l.start else b.start
      let t := if s.1.isAvail r.start = true then absorb s.1 (toInt r.start) s.2 else s
      t.1.makeAvail i (ofInt t.2)) := by
  have hml : l ∈ pre ++ l :: ([b] ++ r :: post) := by simp
  have hmb : b ∈ pre ++ l :: ([b] ++ r :: post) := by simp
  have hmr : r ∈ pre ++ l :: ([b] ++ r :: post) := by simp
  obtain ⟨hlb,hbr⟩ := I.adjacent
  have hl2 := (I.layout.room l hml).1
  have hbound := I.layout.bounds hmr
  have hr2 := (I.layout.room r hmr).1
  have hsmall := I.layout.small
  have hspace := I.space
  have hptr := pointer_eq I hmb
  have L := layout_nFree I.layout (wrap (h.nFree+1))
  rw [hhc] at L
  have hidx : sub64 (sub64 (h.pointer b.start) h.array / 8) 1 = b.start := by
    rw [hptr]
    simp only [sub64]
    omega
  have hsize : hc.size b.start = b.size := (word_taken L hmb hk).2
  have hleft : hc.left b.start = l.start := by
    have hfoot : sub64 b.start 1 = l.start+l.size-1 := by
      simp only [sub64]
      omega
    rw [Heap.left, hfoot, headerFromFooter_eq L hml (I.noHole l hml)]
  have hright : hc.right b.start = r.start := by rw [Heap.right, hsize, hbr]
  have hb' := ofInt_toInt b.start (by omega)
  have hl' := ofInt_toInt l.start (by omega)
  have hr' := ofInt_toInt r.start (by omega)
  rw [Heaps.free, if_neg (by omega), if_neg (by omega)]
  simp only [hhc, hidx, hb', hsize, hleft, hright, hl', hr']
  split <;> simp only [hl', hb']

theorem merged_tiles {gl gr : List Block} (hl : Group l gl) (hr : Group r gr)
    (hlb : b.start = l.start+l.size) (hbr : r.start = b.start+b.size) {i n : Nat}
    (hi : i = if l.kind = .avail then l.start else b.start)
    (hn : n = b.size+(gl.map Block.size).sum+(gr.map Block.size).sum) :
    Tiles Block.start Block.size i (gl ++ [b] ++ gr) (i+n) := by
  have hright (start : Nat) (hs : r.start = start) :
      Tiles Block.start Block.size start gr (start+(gr.map Block.size).sum) := by
    obtain ⟨-,rfl⟩ | ⟨-,rfl⟩ := hr
    · exact rfl
    · exact ⟨hs, rfl⟩
  subst hn
  obtain ⟨hk,rfl⟩ | ⟨hk,rfl⟩ := hl
  · rw [if_neg (by rw [hk]; exact Kind.noConfusion)] at hi
    subst hi
    exact ⟨rfl, by simpa [Nat.add_assoc] using hright _ hbr⟩
  · rw [if_pos hk] at hi
    subst hi
    refine ⟨rfl, hlb, ?_⟩
    have htail := hright (b.start+b.size) hbr
    rw [hlb] at htail
    simpa [Nat.add_assoc, Nat.add_left_comm b.size] using htail

theorem merged_taken {gl gr : List Block} (hl : Group l gl) (hr : Group r gr)
    (hk : b.kind = .taken) : takenBlocks (gl ++ [b] ++ gr) = [b] := by
  have hb : takenBlocks [b] = [b] := by simp [takenBlocks, hk]
  have happ : takenBlocks (gl ++ [b] ++ gr) =
      takenBlocks gl ++ takenBlocks [b] ++ takenBlocks gr := by
    simp only [takenBlocks, List.filter_append]
  rw [happ, hl.taken, hr.taken, hb]
  rfl

theorem around_ne {M : List Block} {x c g : Block} (L : Layout h (pre ++ x :: (M ++ post)) free)
    (hc : c ∈ pre ++ x :: post) (hg : g ∈ M) : c.start ≠ g.start := by
  obtain ⟨u,v,rfl⟩ := List.append_of_mem hg
  have L' : Layout h ((pre ++ x :: u) ++ g :: (v ++ post)) free := by simpa using L
  refine L'.start_ne ?_
  rw [List.append_assoc, List.cons_append]
  have hin := mem_around (M := u ++ v) hc
  rwa [List.append_assoc] at hin

theorem free_spec (I : HeapInv h (pre ++ l :: ([b] ++ r :: post)) free) (hk : b.kind = .taken)
    (h4 : 4 ≤ b.size) : ∃ h' blocks' free', Heaps.free h (h.pointer b.start) = .ok h' ∧
      h'.array = h.array ∧ h'.len = h.len ∧ HeapInv h' blocks' free' ∧
      (takenBlocks (pre ++ l :: ([b] ++ r :: post))).Perm (b :: takenBlocks blocks') := by
  have hml : l ∈ pre ++ l :: ([b] ++ r :: post) := by simp
  have hmb : b ∈ pre ++ l :: ([b] ++ r :: post) := by simp
  have hmr : r ∈ pre ++ l :: ([b] ++ r :: post) := by simp
  obtain ⟨hlb,hbr⟩ := I.adjacent
  have hl2 := (I.layout.room l hml).1
  have hb2 := (I.layout.room b hmb).1
  have hr2 := (I.layout.room r hmr).1
  have hbound := I.layout.bounds hmr
  have hsmall := I.layout.small
  obtain ⟨prel,x,gl,hgl,hx,hkl⟩ := I.left_group
  have Ir : HeapInv h ((pre ++ [l, b]) ++ r :: post) free := by simpa using I
  obtain ⟨gr,y,postr,hgr,hy,hkr⟩ := Ir.right_group
  have hblocks : pre ++ l :: ([b] ++ r :: post) =
      prel ++ x :: ((gl ++ [b] ++ gr) ++ y :: postr) := by
    calc pre ++ l :: ([b] ++ r :: post) = (pre ++ [l]) ++ [b] ++ (r :: post) := by simp
      _ = prel ++ x :: ((gl ++ [b] ++ gr) ++ y :: postr) := by rw [hgl, hgr]; simp
  have L := layout_nFree I.layout (wrap (h.nFree+1))
  generalize hhc : ({ h with nFree := wrap (h.nFree+1) } : Heap) = hc at L
  rw [free_eq I hk hhc]
  have S0 : hc.array = h.array ∧ hc.len = h.len := by rw [← hhc]; exact ⟨rfl, rfl⟩
  obtain ⟨h1,free1,n1,e1,S1,L1,hn1,hf1⟩ := stage_spec L hml hkl
    (fun hav => I.complete l hml hav) b.size (by omega)
  have hgl := hkl.sum_le
  have hgr := hkr.sum_le
  have hel := hkl.even (I.layout.even l hml)
  have her := hkr.even (I.layout.even r hmr)
  have heb := I.layout.even b hmb
  obtain ⟨h2,free2,n2,e2,S2,L2,hn2,hf2⟩ := stage_spec L1 hmr hkr
    (fun hav => (hf1 _).mpr ⟨I.complete r hmr hav, fun c hc => by
      rcases hkl with ⟨-,rfl⟩ | ⟨-,rfl⟩
      · cases hc
      · rw [List.mem_singleton.mp hc]; omega⟩) n1 (by omega)
  have hlfree : l.kind = .avail → l.start ≠ 0 := by
    rintro hav he
    have hmem := I.complete l hml hav
    rw [he] at hmem
    exact Segment.ne_null I.layout.links hmem
  -- the merged words
  obtain ⟨i,hi,hi0,hik⟩ : ∃ i, (if hc.isAvail l.start = true then l.start else b.start) = i ∧
      i ≠ 0 ∧ i = if l.kind = .avail then l.start else b.start := by
    refine ⟨_, rfl, ?_⟩
    rcases hkl with ⟨hk1,-⟩ | ⟨hk1,-⟩
    · rw [(word_taken L hml hk1).1]
      simp only [hk1, reduceCtorEq, if_false, Bool.false_eq_true, and_true]
      omega
    · rw [(word_avail L hml hk1).2.1]
      simp only [hk1, if_true, and_true]
      exact hlfree hk1
  have ht := merged_tiles hkl hkr hlb hbr hik (hn2.trans (by rw [hn1]))
  have hMfree : ∀ c ∈ gl ++ [b] ++ gr, c.start ∉ free2 := by
    intro c hc hcf
    obtain ⟨hcf,hcr⟩ := (hf2 _).mp hcf
    obtain ⟨hcf,hcl⟩ := (hf1 _).mp hcf
    simp only [List.mem_append, List.mem_singleton] at hc
    rcases hc with (hc | rfl) | hc
    · exact hcl c hc rfl
    · exact taken_not_free I.layout hmb hk hcf
    · exact hcr c hc rfl
  have he2 : 2 ∣ n2 := by omega
  have hn4 : 4 ≤ n2 := by omega
  have hL2 : Layout h2 ((prel ++ [x]) ++ ((gl ++ [b] ++ gr) ++ (y :: postr))) free2 := by
    rw [hblocks] at L2
    simpa using L2
  obtain ⟨h3,e3,S3,L3⟩ := merge_spec hL2 hMfree (by simp) ht hn4 he2 hi0
  rw [hblocks] at I ⊢
  have S : SameHeap hc h3 := S1.trans (S2.trans S3)
  have hback := ofInt_toInt n2 (by omega)
  refine ⟨h3, prel ++ x :: ([⟨i, n2, .avail⟩] ++ y :: postr), i :: free2, ?_,
    S.array.trans S0.1, S.len.trans S0.2, ?_, ?_⟩
  · simp only [e1, e2, hi, hback]
    exact e3
  · refine I.exchange (S.array.trans S0.1) (S.len.trans S0.2) (by simpa using L3) hx hy
      (List.isChain_singleton _) (by simp) (by simpa using hn4) (by simp) fun c hc hck => ?_
    have hcf := I.complete c (mem_around hc) hck
    have hne (g : Block) (hg : g ∈ gl ++ [b] ++ gr) : c.start ≠ g.start :=
      around_ne I.layout hc hg
    refine List.mem_cons_of_mem _ ((hf2 _).mpr ⟨(hf1 _).mpr ⟨hcf, fun g hg => ?_⟩, fun g hg => ?_⟩)
    · exact hne g (by simp [hg])
    · exact hne g (by simp [hg])
  · have hM := merged_taken hkl hkr hk
    have hold := takenBlocks_exchange prel (gl ++ [b] ++ gr) (y :: postr) x
    have hnew := takenBlocks_exchange prel [⟨i, n2, .avail⟩] (y :: postr) x
    rw [hM] at hold
    exact hold.trans (List.Perm.cons b hnew.symm)

end Free

/-! `heap::init`. -/

/-- What the assertions leave: an aligned array of an even number of words inside the region. -/
theorem init_region (memory : Nat → Nat) (base bytes : Nat) (h : Heap)
    (hi : init memory base bytes = .ok h) : ∃ array len, array % 16 = 8 ∧ base ≤ array ∧
      array+8*len ≤ base+bytes ∧ 10 ≤ len ∧ 2 ∣ len ∧ len ≤ bytes / 8 ∧
      ((⟨array, len, memory, 0, 0, 0⟩ : Heap).makeTaken 0 2 >>= fun h =>
        h.makeAvail 2 (len-4) >>= fun h => h.makeTaken (len-2) 2) = .ok h := by
  simp only [init] at hi
  generalize sub64 (wrap (base+8+15) / 16 * 16) 8 = array at hi
  by_cases h1 : array % 16 ≠ 8
  · rw [if_pos h1] at hi; cases hi
  rw [if_neg h1] at hi
  by_cases h2 : array < base
  · rw [if_pos h2] at hi; cases hi
  rw [if_neg h2] at hi
  by_cases h3 : 16 ≤ array-base
  · rw [if_pos h3] at hi; cases hi
  rw [if_neg h3] at hi
  by_cases h4 : bytes < array-base
  · rw [if_pos h4] at hi; cases hi
  rw [if_neg h4] at hi
  by_cases h5 : (bytes-(array-base)) / 16 * 16 ≤ 64
  · rw [if_pos h5] at hi; cases hi
  rw [if_neg h5] at hi
  exact ⟨array, _, by omega, by omega, by omega, by omega, by omega, by omega, hi⟩

theorem init_spec (memory : Nat → Nat) (base bytes : Nat) (h : Heap)
    (hregion : base+bytes ≤ 2^64) (hsmall : bytes / 8 < 2^31) (hi : init memory base bytes = .ok h) :
    ∃ blocks free, HeapInv h blocks free ∧ 10 ≤ h.len ∧
      takenBlocks blocks = [⟨0, 2, .taken⟩, ⟨h.len-2, 2, .taken⟩] := by
  obtain ⟨array,len,ha,hbase,hend,h10,heven,hlen,hi⟩ := init_region memory base bytes h hi
  have L0 : Layout ⟨array, len, memory, 0, 0, 0⟩
      ([] ++ ⟨0, 2, .hole⟩ :: [⟨2, len-4, .hole⟩, ⟨len-2, 2, .hole⟩]) [] := by
    refine ⟨by simp only; omega, ⟨rfl, rfl, ?_, ?_⟩, ?_, ?_, ?_, rfl, List.nodup_nil, by simp⟩
    · change len-2 = 0+2+(len-4)
      omega
    · change 0+2+(len-4)+2 = len
      omega
    · simp only [List.nil_append, List.mem_cons, List.not_mem_nil, or_false, forall_eq_or_imp,
        forall_eq]
      omega
    · simp only [List.nil_append, List.mem_cons, List.not_mem_nil, or_false, forall_eq_or_imp,
        forall_eq]
      exact ⟨⟨by omega, fun hk => by cases hk⟩, ⟨by omega, fun hk => by cases hk⟩,
        ⟨by omega, fun hk => by cases hk⟩⟩
    · intro c hc t ht
      simp only [List.nil_append, List.mem_cons, List.not_mem_nil, or_false] at hc
      rcases hc with rfl | rfl | rfl <;> cases ht
  obtain ⟨h1,e1,S1,L1⟩ := makeTaken_layout L0
  obtain ⟨h2,e2,S2,L2⟩ := makeAvail_layout
    (show Layout h1 ([⟨0, 2, .taken⟩] ++ ⟨2, len-4, .hole⟩ :: [⟨len-2, 2, .hole⟩]) [] from L1)
    (by omega) (by omega)
  obtain ⟨h3,e3,S3,L3⟩ := makeTaken_layout
    (show Layout h2 ([⟨0, 2, .taken⟩, ⟨2, len-4, .avail⟩] ++ ⟨len-2, 2, .hole⟩ :: []) [2] from L2)
  rw [e1, show (Except.ok h1 >>= fun h => h.makeAvail 2 (len-4) >>= fun h => h.makeTaken (len-2) 2) =
    (h1.makeAvail 2 (len-4) >>= fun h => h.makeTaken (len-2) 2) from rfl, e2] at hi
  obtain rfl : h3 = h := Except.ok.inj (e3.symm.trans hi)
  have S := S1.trans (S2.trans S3)
  have hl : h3.len = len := S.len
  have harr : h3.array = array := S.array
  refine ⟨_, _, ⟨L3, ?_, ?_, ?_, rfl, by rw [hl]; rfl, ?_, by rw [harr]; exact ha, by
    rw [harr, hl]; omega⟩, by omega, by rw [hl]; rfl⟩
  · simp
  · simp
  · simp [Apart]
  · simp only [List.cons_append, List.nil_append, List.mem_cons, List.not_mem_nil, or_false,
      forall_eq_or_imp, forall_eq]
    refine ⟨fun hne => absurd rfl hne, fun _ _ => by omega, fun _ hne => absurd (by rw [hl]) hne⟩

end NetKernel.Heaps
