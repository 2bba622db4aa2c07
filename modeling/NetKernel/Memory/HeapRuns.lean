import NetKernel.Lib.Runs
import NetKernel.Memory.HeapOperations

/-! Runs of `malloc` and `free`: a log of the live allocations beside the heap. Each
of them owns a taken block, and only the sentinels are taken besides. -/
namespace NetKernel.Heaps
open Function LinkedList Tiling Runs

/-- A pointer that `malloc(bytes)` returned and that has not been freed since. -/
structure Alloc where
  (ptr bytes : Nat)
deriving DecidableEq, Repr

structure HeapState where
  heap : Heap
  live : List Alloc

/-- What may be passed to `free`: null, the pointer of `malloc(0)`, a live allocation. -/
def Freeable (s : HeapState) (p : Nat) : Prop :=
  p = 0 ∨ p = s.heap.array ∨ ∃ a ∈ s.live, a.ptr = p

inductive HeapStep : HeapState → HeapState → Prop
  | malloc {s : HeapState} {n p : Nat} {h : Heap} : n < 2^31 → malloc s.heap n = .ok (p, h) →
      HeapStep s ⟨h, if n = 0 ∨ p = 0 then s.live else ⟨p, n⟩ :: s.live⟩
  | free {s : HeapState} {p : Nat} {h : Heap} : Freeable s p → free s.heap p = .ok h →
      HeapStep s ⟨h, s.live.eraseP (·.ptr = p)⟩

/-- Runs from `heap::init(base, bytes)`. -/
def heapSystem (memory : Nat → Nat) (base bytes : Nat) : System HeapState where
  Init s := init memory base bytes = .ok s.heap ∧ s.live = []
  Step := HeapStep

structure Owns (h : Heap) (b : Block) (a : Alloc) : Prop where
  taken : b.kind = .taken
  ptr : h.pointer b.start = a.ptr
  bytes : a.bytes ≤ 8*(b.size-2)

structure RunInv (s : HeapState) (blocks : List Block) (free : List Nat) : Prop where
  heap : HeapInv s.heap blocks free
  ten : 10 ≤ s.heap.len
  owned : ((takenBlocks blocks).map fun b => s.heap.pointer b.start).Perm
    (s.heap.pointer 0 :: s.heap.pointer (s.heap.len-2) :: s.live.map Alloc.ptr)
  owns : ∀ a ∈ s.live, ∃ b ∈ blocks, Owns s.heap b a

section
variable {s : HeapState} {h : Heap} {blocks : List Block} {free : List Nat} {b c : Block} {a : Alloc}

theorem mem_takenBlocks : b ∈ takenBlocks blocks ↔ b ∈ blocks ∧ b.kind = .taken := by
  simp [takenBlocks]

theorem pointer_congr {h' : Heap} (ha : h'.array = h.array) (i : Nat) :
    h'.pointer i = h.pointer i := by
  rw [Heap.pointer, Heap.pointer, ha]

theorem perm_third {α : Type*} (x y z : α) (l : List α) : (z :: x :: y :: l).Perm (x :: y :: z :: l) :=
  (List.Perm.swap x z _).trans ((List.Perm.swap y z l).cons x)

theorem HeapInv.count (I : HeapInv h blocks free) (m n : Nat) :
    HeapInv { h with nMalloc := m, nFree := n } blocks free :=
  have L := I.layout
  ⟨⟨L.small, L.tiles, L.even, L.room, L.tagged, L.links, L.nodup, L.freeAvail⟩, I.noHole,
    I.complete, I.separated, I.first, I.last, I.four, I.aligned, I.space⟩

theorem pointers_nodup (I : HeapInv h blocks free) :
    ((takenBlocks blocks).map fun b => h.pointer b.start).Nodup := by
  have hp := I.layout.tiles.pairwise.filter (·.kind = .taken)
  refine List.pairwise_map.mpr (hp.imp_of_mem fun {x y} hx hy hxy => ?_)
  have hx' := (mem_takenBlocks.mp hx).1
  have hy' := (mem_takenBlocks.mp hy).1
  have h2 := (I.layout.room x hx').1
  rw [pointer_eq I hx', pointer_eq I hy']
  omega

theorem RunInv.nodup (R : RunInv s blocks free) :
    (s.heap.pointer 0 :: s.heap.pointer (s.heap.len-2) :: s.live.map Alloc.ptr).Nodup :=
  R.owned.nodup_iff.mp (pointers_nodup R.heap)

theorem RunInv.not_end (R : RunInv s blocks free) (ha : a ∈ s.live) (ho : Owns s.heap b a) :
    b ≠ ⟨0, 2, .taken⟩ ∧ b ≠ ⟨s.heap.len-2, 2, .taken⟩ := by
  obtain ⟨h0,hn⟩ := List.nodup_cons.mp R.nodup
  obtain ⟨h1,-⟩ := List.nodup_cons.mp hn
  have hmem : a.ptr ∈ s.live.map Alloc.ptr := List.mem_map_of_mem ha
  constructor
  · rintro rfl
    exact h0 (List.mem_cons_of_mem _ (ho.ptr ▸ hmem))
  · rintro rfl
    exact h1 (ho.ptr ▸ hmem)

theorem runInv_init {memory : Nat → Nat} {base bytes : Nat} (hregion : base+bytes ≤ 2^64)
    (hsmall : bytes / 8 < 2^31) (hi : (heapSystem memory base bytes).Init s) :
    ∃ blocks free, RunInv s blocks free := by
  obtain ⟨hi,hl⟩ := hi
  obtain ⟨blocks,free,I,h10,ht⟩ := init_spec memory base bytes s.heap hregion hsmall hi
  refine ⟨blocks, free, I, h10, ?_, ?_⟩
  · rw [ht, hl]
    exact List.Perm.refl _
  · rw [hl]
    exact fun a ha => absurd ha List.not_mem_nil

theorem runInv_malloc (R : RunInv s blocks free) {n p : Nat} (hn : n < 2^31)
    (he : malloc s.heap n = .ok (p, h)) :
    ∃ blocks free, RunInv ⟨h, if n = 0 ∨ p = 0 then s.live else ⟨p, n⟩ :: s.live⟩ blocks free := by
  by_cases h0 : n = 0
  · rw [malloc, if_pos h0] at he
    cases he
    exact ⟨blocks, free, by rw [if_pos (Or.inl h0)]; exact R⟩
  cases malloc_spec R.heap n hn h0 with
  | inl hnull =>
    rw [hnull] at he
    cases he
    exact ⟨blocks, free, by rw [if_pos (Or.inr rfl)]; exact R⟩
  | inr hnew =>
    obtain ⟨h',blocks',free',b,hm,S,I',hk,hbytes,hperm⟩ := hnew
    rw [hm] at he
    cases he
    have hb : b ∈ blocks' := (mem_takenBlocks.mp (hperm.mem_iff.mpr List.mem_cons_self)).1
    have hptr := pointer_eq I' hb
    have hne : h'.pointer b.start ≠ 0 := by omega
    rw [if_neg hne, if_neg (by simp [h0, hne])]
    have hp : ∀ i, h'.pointer i = s.heap.pointer i := pointer_congr S.array
    have hlen : h'.len = s.heap.len := S.len
    refine ⟨blocks', free', I'.count _ _, ?_, ?_, ?_⟩
    · change 10 ≤ h'.len
      rw [hlen]
      exact R.ten
    · have hmap := hperm.map fun b => h'.pointer b.start
      have hcons := R.owned.cons (h'.pointer b.start)
      have hp' : ∀ i, ({ h' with nMalloc := wrap (h'.nMalloc+1) } : Heap).pointer i =
          s.heap.pointer i := pointer_congr S.array
      simp only [hp, List.map_cons] at hmap hcons
      simp only [hp', hp, List.map_cons]
      rw [hlen]
      exact (hmap.trans hcons).trans (perm_third _ _ _ _)
    · intro a ha
      cases List.mem_cons.mp ha with
      | inl he =>
        rw [he]
        exact ⟨b, hb, hk, rfl, hbytes⟩
      | inr hm =>
        obtain ⟨c,hc,ho⟩ := R.owns a hm
        have hc' := hperm.mem_iff.mpr (List.mem_cons_of_mem _ (mem_takenBlocks.mpr ⟨hc, ho.taken⟩))
        exact ⟨c, (mem_takenBlocks.mp hc').1, ho.taken, (hp _).trans ho.ptr, ho.bytes⟩

theorem runInv_free (R : RunInv s blocks free) {p : Nat} (hp : Freeable s p)
    (he : Heaps.free s.heap p = .ok h) :
    ∃ blocks free, RunInv ⟨h, s.live.eraseP (·.ptr = p)⟩ blocks free := by
  have hlive : ∀ a ∈ s.live, a.ptr ≠ 0 ∧ a.ptr ≠ s.heap.array := by
    intro a ha
    obtain ⟨b,hb,ho⟩ := R.owns a ha
    have := pointer_eq R.heap hb
    rw [← ho.ptr]
    omega
  have hskip : (∀ a ∈ s.live, a.ptr ≠ p) → h = s.heap →
      ∃ blocks free, RunInv ⟨h, s.live.eraseP (·.ptr = p)⟩ blocks free := by
    rintro hne rfl
    exact ⟨blocks, free, by rw [List.eraseP_of_forall_not (by simpa using hne)]; exact R⟩
  by_cases h0 : p = 0
  · rw [Heaps.free, if_pos h0] at he
    exact hskip (fun a ha => by rw [h0]; exact (hlive a ha).1) (Except.ok.inj he).symm
  by_cases h1 : p = s.heap.array
  · rw [Heaps.free, if_neg h0, if_pos h1] at he
    exact hskip (fun a ha => by rw [h1]; exact (hlive a ha).2) (Except.ok.inj he).symm
  obtain ⟨a,ha,rfl⟩ := (hp.resolve_left h0).resolve_left h1
  obtain ⟨b,hb,ho⟩ := R.owns a ha
  obtain ⟨hf,hl⟩ := R.not_end ha ho
  have h4 := R.heap.four b hb hf hl
  obtain ⟨pre,x,y,post,rfl⟩ := R.heap.neighbours hb hf hl
  obtain ⟨h',blocks',free',hfree,harr,hlen,I',hperm⟩ := free_spec R.heap ho.taken h4
  rw [ho.ptr, he] at hfree
  obtain rfl : h = h' := Except.ok.inj hfree
  have hptr : ∀ i, h.pointer i = s.heap.pointer i := pointer_congr harr
  obtain ⟨c,l1,l2,-,hc,hsplit,herase⟩ := List.exists_of_eraseP (p := (·.ptr = a.ptr)) ha (by simp)
  have hcp : c.ptr = a.ptr := by simpa using hc
  have hmid : (s.live.map Alloc.ptr).Perm (a.ptr :: (l1 ++ l2).map Alloc.ptr) := by
    rw [hsplit, ← hcp]
    exact List.perm_middle.map Alloc.ptr
  refine ⟨blocks', free', I', by simpa [hlen] using R.ten, ?_, ?_⟩
  · have hmap := (hperm.map fun b => s.heap.pointer b.start).symm.trans
      (R.owned.trans ((hmid.cons _).cons _))
    simp only [List.map_cons, ho.ptr] at hmap
    have hmove := hmap.trans (perm_third _ _ _ _).symm
    rw [herase]
    simp only [hptr, hlen]
    exact hmove.cons_inv
  · intro d hd
    rw [herase] at hd
    have hdl : d ∈ s.live := by
      rw [hsplit]
      simp only [List.mem_append, List.mem_cons] at hd ⊢
      tauto
    have hne : d.ptr ≠ a.ptr := by
      have hn := hmid.nodup_iff.mp (List.nodup_cons.mp (List.nodup_cons.mp R.nodup).2).2
      intro he
      exact (List.nodup_cons.mp hn).1 (he ▸ List.mem_map_of_mem hd)
    obtain ⟨e,hm,hoe⟩ := R.owns d hdl
    have hin := hperm.mem_iff.mp (mem_takenBlocks.mpr ⟨hm, hoe.taken⟩)
    cases List.mem_cons.mp hin with
    | inl heq => exact absurd (hoe.ptr.symm.trans (heq ▸ ho.ptr)) hne
    | inr hin =>
      exact ⟨e, (mem_takenBlocks.mp hin).1, hoe.taken, (hptr _).trans hoe.ptr, hoe.bytes⟩

theorem run_inv (memory : Nat → Nat) (base bytes : Nat) (hregion : base+bytes ≤ 2^64)
    (hsmall : bytes / 8 < 2^31) :
    (heapSystem memory base bytes).Invariant fun s => ∃ blocks free, RunInv s blocks free := by
  refine ⟨fun s hi => runInv_init hregion hsmall hi, ?_⟩
  rintro s t ⟨blocks,free,R⟩ hs
  cases hs with
  | malloc hn he => exact runInv_malloc R hn he
  | free hp he => exact runInv_free R hp he

/-- The words of a block that the heap itself uses: tags, and the links while available. -/
def Block.reserved (b : Block) : List Nat :=
  match b.kind with
  | .avail => [b.start, b.start+1, b.start+2, b.start+b.size-1]
  | _ => [b.start, b.start+b.size-1]

/-- The bytes of a live allocation lie in the payload of its block. -/
structure InPayload (h : Heap) (b : Block) (a : Alloc) : Prop where
  taken : b.kind = .taken
  ptr : a.ptr = h.array+8*(b.start+1)
  bytes : a.ptr+a.bytes ≤ h.array+8*(b.start+b.size-1)

theorem RunInv.inPayload (R : RunInv s blocks free) (ha : a ∈ s.live) :
    ∃ b ∈ blocks, InPayload s.heap b a := by
  obtain ⟨b,hb,ho⟩ := R.owns a ha
  obtain ⟨hf,hl⟩ := R.not_end ha ho
  have h4 := R.heap.four b hb hf hl
  have hp := pointer_eq R.heap hb
  have hbytes := ho.bytes
  refine ⟨b, hb, ho.taken, by rw [← ho.ptr, hp], ?_⟩
  rw [← ho.ptr, hp]
  omega

theorem RunInv.aligned (R : RunInv s blocks free) (ha : a ∈ s.live) : a.ptr % 16 = 0 := by
  obtain ⟨b,hb,ho⟩ := R.inPayload ha
  have he := R.heap.layout.even_start hb
  have hbase := R.heap.aligned
  have hp := ho.ptr
  omega

theorem RunInv.reserved (R : RunInv s blocks free) (ha : a ∈ s.live) (hc : c ∈ blocks) {i : Nat}
    (hi : i ∈ c.reserved) :
    s.heap.array+8*i+8 ≤ a.ptr ∨ a.ptr+a.bytes ≤ s.heap.array+8*i := by
  obtain ⟨b,hb,ho⟩ := R.inPayload ha
  have hb2 := (R.heap.layout.room b hb).1
  obtain ⟨hc2,hc4⟩ := R.heap.layout.room c hc
  have hp := ho.ptr
  have hn := ho.bytes
  have hrange : c.start ≤ i ∧ i < c.start+c.size := by
    unfold Block.reserved at hi
    cases hk : c.kind with
    | avail =>
      have := hc4 hk
      simp only [hk, List.mem_cons, List.not_mem_nil, or_false] at hi
      omega
    | hole => simp only [hk, List.mem_cons, List.not_mem_nil, or_false] at hi; omega
    | taken => simp only [hk, List.mem_cons, List.not_mem_nil, or_false] at hi; omega
  by_cases he : c = b
  · subst he
    have hi' : i = c.start ∨ i = c.start+c.size-1 := by
      simpa [Block.reserved, ho.taken] using hi
    omega
  · have := R.heap.layout.apart hc hb he
    omega

theorem RunInv.disjoint (R : RunInv s blocks free) :
    s.live.Pairwise fun a c => a.ptr+a.bytes ≤ c.ptr ∨ c.ptr+c.bytes ≤ a.ptr := by
  have hn := (List.nodup_cons.mp (List.nodup_cons.mp R.nodup).2).2
  refine (List.pairwise_map.mp hn).imp_of_mem fun {a c} ha hc hne => ?_
  obtain ⟨b,hb,hob⟩ := R.inPayload ha
  obtain ⟨d,hd,hod⟩ := R.inPayload hc
  have hp := hob.ptr
  have hq := hod.ptr
  have hpn := hob.bytes
  have hqn := hod.bytes
  have hb2 := (R.heap.layout.room b hb).1
  have hd2 := (R.heap.layout.room d hd).1
  have := R.heap.layout.apart hb hd (by rintro rfl; omega)
  omega

theorem RunInv.single (R : RunInv s blocks free) (hl : s.live = []) :
    blocks = [⟨0, 2, .taken⟩, ⟨2, s.heap.len-4, .avail⟩, ⟨s.heap.len-2, 2, .taken⟩] := by
  have h10 := R.ten
  have I := R.heap
  have hcount : (takenBlocks blocks).length = 2 := by
    have := R.owned.length_eq
    simpa [hl] using this
  -- the first and the last block
  cases blocks with
  | nil => cases I.first
  | cons x rest =>
    obtain rfl : x = ⟨0, 2, .taken⟩ := Option.some.inj I.first
    have hne : rest ≠ [] := by
      rintro rfl
      have := congrArg (Option.map Block.start) I.last
      simp only [List.getLast?_singleton, Option.map_some, Option.some.injEq] at this
      omega
    obtain ⟨mid,e,rfl⟩ : ∃ mid e, rest = mid ++ [e] :=
      ⟨_, _, (List.dropLast_append_getLast hne).symm⟩
    obtain rfl : e = ⟨s.heap.len-2, 2, .taken⟩ := by
      have := I.last
      rw [← List.cons_append, List.getLast?_concat] at this
      exact Option.some.inj this
    -- nothing between them is taken
    have hmid : ∀ b ∈ mid, b.kind = .avail := by
      have hnil : takenBlocks mid = [] := by
        simpa [takenBlocks, List.filter_append] using hcount
      intro b hb
      cases hk : b.kind with
      | avail => rfl
      | hole => exact absurd hk (I.noHole b (by simp [hb]))
      | taken =>
        have := mem_takenBlocks.mpr ⟨hb, hk⟩
        rw [hnil] at this
        cases this
    have ht := I.layout.tiles
    cases mid with
    | nil =>
      obtain ⟨-,ht,-⟩ := ht
      simp only at ht
      omega
    | cons b mid =>
      cases mid with
      | nil =>
        obtain ⟨-,hb,he,-⟩ := ht
        obtain ⟨bs,bn,bk⟩ := b
        obtain rfl : bk = .avail := hmid ⟨bs, bn, bk⟩ (by simp)
        simp only at hb he
        obtain rfl : bn = s.heap.len-4 := by omega
        obtain rfl : bs = 2 := by omega
        rfl
      | cons c mid =>
        have hs : Apart b c := by
          have := I.separated
          simp only [List.cons_append, List.isChain_cons_cons] at this
          exact this.2.1
        rcases hs with hs | hs
        · rw [hmid b (by simp)] at hs; cases hs
        · rw [hmid c (by simp)] at hs; cases hs

theorem RunInv.malloc_total (R : RunInv s blocks free) (n : Nat) (hn : n < 2^31) :
    ∃ r, malloc s.heap n = .ok r := by
  by_cases h0 : n = 0
  · exact ⟨_, by rw [malloc, if_pos h0]⟩
  cases malloc_spec R.heap n hn h0 with
  | inl hnull => exact ⟨_, hnull⟩
  | inr hnew =>
    obtain ⟨h',-,-,b,hm,-⟩ := hnew
    exact ⟨_, hm⟩

theorem RunInv.free_total (R : RunInv s blocks free) (p : Nat) (hp : Freeable s p) :
    ∃ h, Heaps.free s.heap p = .ok h := by
  by_cases h0 : p = 0
  · exact ⟨_, by rw [Heaps.free, if_pos h0]⟩
  by_cases h1 : p = s.heap.array
  · exact ⟨_, by rw [Heaps.free, if_neg h0, if_pos h1]⟩
  obtain ⟨a,ha,rfl⟩ := (hp.resolve_left h0).resolve_left h1
  obtain ⟨b,hb,ho⟩ := R.owns a ha
  obtain ⟨hf,hl⟩ := R.not_end ha ho
  obtain ⟨pre,x,y,post,rfl⟩ := R.heap.neighbours hb hf hl
  obtain ⟨h',-,-,hfree,-⟩ := free_spec R.heap ho.taken (R.heap.four b hb hf hl)
  rw [ho.ptr] at hfree
  exact ⟨h', hfree⟩

/-- In every state of a run the blocks tile the array with equal headers and footers,
the free list is a good doubly linked list of exactly the available blocks, and no two
of these are neighbours; every live allocation is aligned and lies in the payload of a
taken block, apart from the others and from the heap's own words; with nothing
allocated one available block is left; and no call panics. -/
theorem heap_invariant (memory : Nat → Nat) (base bytes : Nat) (hregion : base+bytes ≤ 2^64)
    (hsmall : bytes / 8 < 2^31) (s : HeapState)
    (hr : (heapSystem memory base bytes).Reachable s) :
    ∃ blocks free, HeapInv s.heap blocks free ∧
      (∀ a ∈ s.live, a.ptr % 16 = 0 ∧ ∃ b ∈ blocks, InPayload s.heap b a) ∧
      (s.live.Pairwise fun a c => a.ptr+a.bytes ≤ c.ptr ∨ c.ptr+c.bytes ≤ a.ptr) ∧
      (∀ a ∈ s.live, ∀ b ∈ blocks, ∀ i ∈ b.reserved,
        s.heap.array+8*i+8 ≤ a.ptr ∨ a.ptr+a.bytes ≤ s.heap.array+8*i) ∧
      (s.live = [] → blocks =
        [⟨0, 2, .taken⟩, ⟨2, s.heap.len-4, .avail⟩, ⟨s.heap.len-2, 2, .taken⟩]) ∧
      (∀ n < 2^31, ∃ r, malloc s.heap n = .ok r) ∧
      ∀ p, Freeable s p → ∃ h, Heaps.free s.heap p = .ok h := by
  obtain ⟨blocks,free,R⟩ := (run_inv memory base bytes hregion hsmall).reachable hr
  exact ⟨blocks, free, R.heap, fun a ha => ⟨R.aligned ha, R.inPayload ha⟩, R.disjoint,
    fun a ha b hb i hi => R.reserved ha hb hi, R.single, R.malloc_total, R.free_total⟩

theorem small_run : ∃ h p h', init (fun _ => 0) 4096 256 = .ok h ∧ malloc h 24 = .ok (p, h') ∧
    p = 4128 := by
  have hptr : (match init (fun _ => 0) 4096 256 with
      | .ok h => match malloc h 24 with
        | .ok r => r.1
        | .error _ => 0
      | .error _ => 0) = 4128 := by decide +kernel
  cases hi : init (fun _ => 0) 4096 256 with
  | error e => rw [hi] at hptr; cases hptr
  | ok h =>
    rw [hi] at hptr
    cases hm : malloc h 24 with
    | error e => simp only [hm] at hptr; cases hptr
    | ok r => exact ⟨h, r.1, r.2, rfl, hm, by simpa only [hm] using hptr⟩

theorem heap_invariant_small : ∃ s : HeapState, s.live = [⟨4128, 24⟩] ∧
    ∃ blocks free, HeapInv s.heap blocks free ∧
      (∀ a ∈ s.live, a.ptr % 16 = 0 ∧ ∃ b ∈ blocks, InPayload s.heap b a) ∧
      (s.live.Pairwise fun a c => a.ptr+a.bytes ≤ c.ptr ∨ c.ptr+c.bytes ≤ a.ptr) ∧
      (∀ a ∈ s.live, ∀ b ∈ blocks, ∀ i ∈ b.reserved,
        s.heap.array+8*i+8 ≤ a.ptr ∨ a.ptr+a.bytes ≤ s.heap.array+8*i) ∧
      (s.live = [] → blocks =
        [⟨0, 2, .taken⟩, ⟨2, s.heap.len-4, .avail⟩, ⟨s.heap.len-2, 2, .taken⟩]) ∧
      (∀ n < 2^31, ∃ r, malloc s.heap n = .ok r) ∧
      ∀ p, Freeable s p → ∃ h, Heaps.free s.heap p = .ok h := by
  obtain ⟨h,p,h',hi,hm,hp⟩ := small_run
  have h0 : (heapSystem (fun _ => 0) 4096 256).Reachable ⟨h, []⟩ := .init ⟨hi, rfl⟩
  have h1 := h0.step (.malloc (by decide) hm)
  refine ⟨_, ?_, heap_invariant (fun _ => 0) 4096 256 (by decide) (by decide) _ h1⟩
  rw [if_neg (by omega), hp]

end
end NetKernel.Heaps
