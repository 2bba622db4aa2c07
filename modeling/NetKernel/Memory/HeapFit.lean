import NetKernel.Memory.HeapRuns

/-! What `malloc` gives: enough bytes unless the size wraps, and a block whenever one
fits. -/
namespace NetKernel.Heaps
open Function LinkedList BestFit Runs

/-- A taken block with its header at `i`: its footer is the same, inside the array. -/
def TakenAt (h : Heap) (i : Nat) : Prop :=
  h.isTaken i = true ∧ 2 ≤ h.size i ∧ i+h.size i ≤ h.len ∧ h.word (i+h.size i-1) = h.word i

/-- A result of `malloc(bytes)` that is null, the array base for no bytes, or a pointer
into a taken block with `bytes` bytes between header and footer. -/
def Enough (bytes p : Nat) (h : Heap) : Prop :=
  p = 0 ∨ bytes = 0 ∧ p = h.array ∨
    ∃ i, p = h.pointer i ∧ TakenAt h i ∧ bytes ≤ 8*(h.size i-2)

section Words
variable {h : Heap} {free : List Nat} {x i n entries : Nat}

theorem ofInt_toInt_nonneg (hn : 0 ≤ toInt n) : ofInt (toInt n) = n % 2^32 := by
  unfold toInt at hn ⊢
  unfold ofInt
  split
  · omega
  · rename_i hbig
    rw [if_neg hbig] at hn
    omega

theorem Usable.remove_avail (U : Usable h free) (hx : x ∈ free) :
    (h.remove x).avail = 0 ∨ (h.remove x).avail+4 ≤ x ∨ x+h.word x ≤ (h.remove x).avail := by
  obtain ⟨l,r,rfl⟩ := List.append_of_mem hx
  have hhead := (U.links.unlink U.nodup).head_mem
  rw [← Heaps.remove_avail] at hhead
  refine hhead.imp id fun hy => ?_
  have hy' : (h.remove x).avail ∈ l ++ x :: r := by
    simp only [List.mem_append, List.mem_cons] at hy ⊢
    exact hy.imp id Or.inr
  have hne : x ≠ (h.remove x).avail := by
    have hnot := U.nodup
    rw [List.nodup_middle] at hnot
    rintro he
    exact (List.nodup_cons.mp hnot).1 (he ▸ hy)
  have h4 := (U.block _ hy').1
  have := U.apart x hx _ hy' hne
  omega

/-- A new available block changes words of its own and one of the old head of the list. -/
theorem makeAvail_keeps (h : Heap) (hn : n % 2 = 0) (h4 : 4 ≤ n) (hb : i+n < 2^64) :
    ∃ h', h.makeAvail i n = .ok h' ∧ SameHeap h h' ∧
      ∀ j, j < i ∨ i+n ≤ j → h.avail = 0 ∨ j ≠ h.avail+2 → h'.word j = h.word j := by
  refine ⟨_, makeAvail_eq h hn (by omega) hb _ rfl, ?_, fun j hj hav => ?_⟩
  · split <;> exact ⟨rfl, rfl, rfl, rfl⟩
  have hkeep : ((((h.store i n).store (i+n-1) n).setNext i h.avail).setPrev i 0).word j =
      h.word j := by
    simp only [Heap.setNext, Heap.setPrev, Heap.store]
    rw [update_of_ne (by omega), update_of_ne (by omega), update_of_ne (by omega),
      update_of_ne (by omega)]
  by_cases hz : h.avail = 0
  · simp only [if_pos hz]
    exact hkeep
  · simp only [if_neg hz]
    rw [← hkeep]
    exact update_of_ne (hav.resolve_left hz) _ _

/-- The block taken from the one at `x` has equal tags, at least the words asked for and
no more than were there, also when the remainder does not fit into an `int`. -/
theorem takeBlock_tags (U : Usable h free) (hx : x ∈ free) (he : 2 ∣ entries) (h4 : 4 ≤ entries)
    (hle : entries ≤ h.word x) : ∃ h' k, takeBlock h entries (h.word x) x = .ok h' ∧
      h'.array = h.array ∧ h'.len = h.len ∧ 2 ∣ k ∧ entries ≤ k ∧ k ≤ h.word x ∧
      h'.word x = k+1 ∧ h'.word (x+k-1) = k+1 := by
  obtain ⟨-,heven,hend⟩ := U.block x hx
  have hspace := U.space
  have hav := U.remove_avail hx
  have hsub : sub64 (h.word x) entries = h.word x-entries := by
    simp only [sub64]
    omega
  have hS := remove_same h x
  have htags : ∀ k, 2 ≤ k → (((h.remove x).store x (k+1)).store (x+k-1) (k+1)).word x = k+1 ∧
      (((h.remove x).store x (k+1)).store (x+k-1) (k+1)).word (x+k-1) = k+1 := by
    intro k hk
    simp only [Heap.store]
    exact ⟨by rw [update_of_ne (by omega), update_self], update_self _ _ _⟩
  simp only [takeBlock, hsub]
  by_cases hsplit : 4 ≤ toInt (h.word x-entries)
  · rw [if_pos hsplit]
    have hrest := ofInt_toInt_nonneg (n := h.word x-entries) (by omega)
    have hrest4 : 4 ≤ (h.word x-entries) % 2^32 := by
      rw [← hrest]
      unfold ofInt
      have : toInt (h.word x-entries) < 2^32 := by
        unfold toInt
        split <;> omega
      omega
    rw [makeTaken_eq (h.remove x) (by omega) (by omega) (by omega), hrest]
    obtain ⟨h0,h1⟩ := htags entries (by omega)
    generalize hh : ((h.remove x).store x (entries+1)).store (x+entries-1) (entries+1) = ht
      at h0 h1
    have hta : ht.avail = (h.remove x).avail := by rw [← hh]; rfl
    have hts : ht.array = h.array ∧ ht.len = h.len := by
      rw [← hh]
      exact ⟨hS.array, hS.len⟩
    obtain ⟨h',hm,S,hkeep⟩ := makeAvail_keeps ht (i := x+entries)
      (n := (h.word x-entries) % 2^32) (by omega) hrest4 (by omega)
    rw [hta] at hkeep
    refine ⟨h', entries, hm, S.array.trans hts.1, S.len.trans hts.2, he, Nat.le_refl _, hle, ?_, ?_⟩
    · rw [hkeep x (by omega) (by omega), h0]
    · rw [hkeep (x+entries-1) (by omega) (by omega), h1]
  · rw [if_neg hsplit, makeTaken_eq (h.remove x) (by omega) (by omega) (by omega)]
    obtain ⟨h0,h1⟩ := htags (h.word x) (by omega)
    exact ⟨_, h.word x, rfl, hS.array, hS.len, heven, hle, Nat.le_refl _, h0, h1⟩

theorem takenAt_of_tags {k : Nat} (hk : 2 ∣ k) (h2 : 2 ≤ k) (hend : i+k ≤ h.len)
    (h0 : h.word i = k+1) (h1 : h.word (i+k-1) = k+1) : TakenAt h i ∧ h.size i = k := by
  have hsize : h.size i = k := by
    rw [Heap.size, h0]
    omega
  rw [TakenAt, hsize, h1, h0]
  refine ⟨⟨?_, h2, hend, rfl⟩, rfl⟩
  rw [Heap.isTaken, h0]
  exact decide_eq_true (by omega)

/-- A call that finds a block: the pointer to it, and at least `entriesFor bytes` words. -/
theorem malloc_usable (U : Usable h free) (hn : n ≠ 0) :
    malloc h n = .ok (0, h) ∧ (∀ x ∈ free, h.size x < entriesFor n) ∨
    ∃ x ∈ free, ∃ p h', malloc h n = .ok (p, h') ∧ p ≠ 0 ∧ p = h'.pointer x ∧ TakenAt h' x ∧
      entriesFor n ≤ h'.size x ∧ h'.array = h.array ∧ h'.len = h.len := by
  obtain ⟨he,h4⟩ := entriesFor_spec n
  refine (malloc_search U hn).imp id fun hfound => ?_
  obtain ⟨x,hx,hle,-,hm⟩ := hfound
  have hx := (scanned_initial _ _ _ _).subset hx
  obtain ⟨-,-,hend⟩ := U.block x hx
  have hspace := U.space
  rw [(U.tag hx).2] at hle hm
  obtain ⟨h',k,hr,ha,hl,hk,hek,hkx,h0,h1⟩ := takeBlock_tags U hx he h4 hle
  obtain ⟨ht,hs⟩ := takenAt_of_tags hk (by omega) (by omega) h0 h1
  have hp : h'.pointer x ≠ 0 := by
    rw [Heap.pointer, wrap, ha]
    omega
  rw [hr] at hm
  refine ⟨x, hx, h'.pointer x, { h' with nMalloc := wrap (h'.nMalloc+1) }, ?_, hp, rfl, ht, ?_,
    ha, hl⟩
  · rw [hm]
    exact congrArg (fun g => Except.ok (h'.pointer x, g)) (if_neg hp)
  · change entriesFor n ≤ h'.size x
    omega

theorem Usable.avail_eq_zero (U : Usable h free) : h.avail = 0 ↔ free = [] := by
  cases free with
  | nil => exact ⟨fun _ => rfl, fun _ => U.links⟩
  | cons x xs =>
    have hne := U.ne_zero List.mem_cons_self
    rw [← show h.avail = x from U.links.1] at hne
    exact ⟨fun h0 => absurd h0 hne, fun hnil => absurd hnil (List.cons_ne_nil _ _)⟩

theorem entriesFor_wrapped {bytes : Nat} (hb : bytes < 2^64) (hw : 2^64 ≤ bytes+7) :
    entriesFor bytes = 4 := by
  have hwrap : wrap (bytes+7) = bytes+7-2^64 := by
    rw [wrap]
    omega
  have hsmall : (bytes+7-2^64) / 8 = 0 := by omega
  rw [entriesFor, hwrap, hsmall]
  rfl

theorem Enough.size_le {bytes p : Nat} (hspace : h.array+8*h.len ≤ 2^64) (hp : p ≠ 0)
    (hb : bytes ≠ 0) (he : Enough bytes p h) : bytes+16 ≤ 2^64 := by
  cases he with
  | inl h0 => exact absurd h0 hp
  | inr he =>
    cases he with
    | inl h0 => exact absurd h0.1 hb
    | inr hblock =>
      obtain ⟨i,-,⟨-,h2,hend,-⟩,hle⟩ := hblock
      omega

/-- `malloc(bytes)` never returns too little exactly when rounding the size up to words
does not wrap, or nothing is available. -/
theorem malloc_enough_iff (U : Usable h free) {bytes : Nat} (hb : bytes < 2^64) :
    (∃ p h', malloc h bytes = .ok (p, h') ∧ Enough bytes p h') ↔
      bytes+7 < 2^64 ∨ h.avail = 0 := by
  by_cases h0 : bytes = 0
  · have hm : malloc h bytes = .ok (h.array, h) := by rw [malloc, if_pos h0]
    exact ⟨fun _ => Or.inl (by omega), fun _ => ⟨_, _, hm, Or.inr (Or.inl ⟨h0, rfl⟩)⟩⟩
  cases malloc_usable U h0 with
  | inl hnull =>
    obtain ⟨hm,hnone⟩ := hnull
    refine ⟨fun _ => ?_, fun _ => ⟨0, h, hm, Or.inl rfl⟩⟩
    by_cases hw : bytes+7 < 2^64
    · exact Or.inl hw
    -- every available block has the four words that the wrapped size asks for
    · rw [entriesFor_wrapped hb (by omega)] at hnone
      refine Or.inr (U.avail_eq_zero.mpr (List.eq_nil_iff_forall_not_mem.mpr fun x hx => ?_))
      have hlt := hnone x hx
      have h4 := (U.block x hx).1
      rw [(U.tag hx).2] at hlt
      omega
  | inr hfound =>
    obtain ⟨x,hx,p,h',hm,hp,hpx,ht,hle,ha,hl⟩ := hfound
    constructor
    · rintro ⟨p',h'',hm',he⟩
      rw [hm] at hm'
      cases hm'
      have := he.size_le (by rw [ha, hl]; exact U.space) hp h0
      exact Or.inl (by omega)
    · intro hcond
      have hw : bytes+7 < 2^64 := by
        refine hcond.resolve_right fun hz => ?_
        rw [U.avail_eq_zero.mp hz] at hx
        exact List.not_mem_nil hx
      have hbytes := entriesFor_bytes hw
      exact ⟨p, h', hm, Or.inr (Or.inr ⟨x, hpx, ht, by omega⟩)⟩

end Words

theorem fresh_heap : ∃ h, init (fun _ => 0) 4096 256 = .ok h ∧ ∃ free, Usable h free := by
  obtain ⟨h,-,-,hi,-⟩ := small_run
  obtain ⟨blocks,free,I,-⟩ := init_spec (fun _ => 0) 4096 256 h (by decide) (by decide) hi
  exact ⟨h, hi, free, I.usable⟩

theorem malloc_enough_fresh : ∃ h, init (fun _ => 0) 4096 256 = .ok h ∧
    ((∃ p h', malloc h 24 = .ok (p, h') ∧ Enough 24 p h') ↔ 24+7 < 2^64 ∨ h.avail = 0) := by
  obtain ⟨h,hi,free,U⟩ := fresh_heap
  exact ⟨h, hi, malloc_enough_iff U (by decide)⟩

/-- Asked for 2^64-1 bytes, a 256-byte heap gives a block. -/
theorem malloc_huge : ∃ h free p h', init (fun _ => 0) 4096 256 = .ok h ∧ Usable h free ∧
    malloc h (2^64-1) = .ok (p, h') ∧ p = 4128 ∧ ¬ Enough (2^64-1) p h' := by
  obtain ⟨h,hi,free,U⟩ := fresh_heap
  have hptr : (match init (fun _ => 0) 4096 256 with
      | .ok h => match malloc h (2^64-1) with
        | .ok r => r.1
        | .error _ => 0
      | .error _ => 0) = 4128 := by decide +kernel
  rw [hi] at hptr
  cases malloc_usable U (n := 2^64-1) (by decide) with
  | inl hnull =>
    simp only [hnull.1] at hptr
    cases hptr
  | inr hfound =>
    obtain ⟨x,-,p,h',hm,hp,-,-,-,ha,hl⟩ := hfound
    refine ⟨h, free, p, h', hi, U, hm, by simpa only [hm] using hptr, fun he => ?_⟩
    have := he.size_le (by rw [ha, hl]; exact U.space) hp (by decide)
    omega

/-- `ceil(bytes/8)` words and two tags, rounded up to an even number, at least four. -/
def wordsNeeded (bytes : Nat) : Nat := max 4 (2*(((bytes+7) / 8+2+1) / 2))

theorem entriesFor_eq {n : Nat} (hn : n+7 < 2^64) : entriesFor n = wordsNeeded n := by
  have hw : wrap (n+7) = n+7 := Nat.mod_eq_of_lt hn
  simp only [entriesFor, hw, wordsNeeded]
  split <;> split <;> omega

/-- What the search for `need` words sees of the free list: up to the first exact fit or
twentieth fit, or all of it. -/
structure Seen (h : Heap) (need : Nat) (free seen : List Nat) : Prop where
  visited : visited h need (h.len+1) 20 h.avail = seen
  part : seen <+: free
  ends : seen = free ∨ Stops h.size need 20 seen
  first : ∀ l, l <+: seen → Stops h.size need 20 l → l = seen

theorem Usable.seen {h : Heap} {free : List Nat} (U : Usable h free) (need : Nat) :
    Seen h need free (scanned h.size need 20 free) := by
  have hlen := U.length_le
  exact ⟨visited_eq need free (h.len+1) 20 h.avail 0 (by omega) U.links,
    scanned_initial h.size need 20 free, scanned_stops (by decide) free,
    fun l hl hs => scanned_first (by decide) hl hs⟩

/-- The call fails only when no available block fits, and leaves the heap alone then;
otherwise it takes a smallest fit of what it has seen. -/
structure TakesBest (h : Heap) (blocks : List Block) (free : List Nat) (need p : Nat)
    (h' : Heap) : Prop where
  null : p = 0 ↔ ∀ b ∈ blocks, b.kind = .avail → b.size < need
  unchanged : p = 0 → h' = h
  smallest : p ≠ 0 → ∃ seen, Seen h need free seen ∧ ∃ b ∈ blocks, b.kind = .avail ∧
    b.start ∈ seen ∧ need ≤ b.size ∧ p = h'.pointer b.start ∧ TakenAt h' b.start ∧
    ∀ c ∈ blocks, c.kind = .avail → c.start ∈ seen → need ≤ c.size → b.size ≤ c.size

/-- In every state of a run `malloc` of 1 to 2^31-1 bytes takes a smallest fit of the scanned
part of the free list, and gives null if and only if no available block is large enough. -/
theorem malloc_best_fit (memory : Nat → Nat) (base bytes : Nat) (hregion : base+bytes ≤ 2^64)
    (hsmall : bytes / 8 < 2^31) (s : HeapState)
    (hr : (heapSystem memory base bytes).Reachable s) (n : Nat) (h1 : 1 ≤ n) (hn : n < 2^31) :
    ∃ blocks free, HeapInv s.heap blocks free ∧ ∃ p h', malloc s.heap n = .ok (p, h') ∧
      TakesBest s.heap blocks free (wordsNeeded n) p h' := by
  obtain ⟨blocks,free,R⟩ := (run_inv memory base bytes hregion hsmall).reachable hr
  have I := R.heap
  have U := I.usable
  have hsize : ∀ b ∈ blocks, b.kind = .avail → s.heap.size b.start = b.size :=
    fun b hb hk => (word_avail I.layout hb hk).2.2
  refine ⟨blocks, free, I, ?_⟩
  obtain ⟨he,h4⟩ := entriesFor_spec n
  have hneed := entriesFor_eq (n := n) (by omega)
  cases malloc_search U (n := n) (by omega) with
  | inl hnull =>
    obtain ⟨hm,hnone⟩ := hnull
    rw [hneed] at hnone
    have hblocks : ∀ b ∈ blocks, b.kind = .avail → b.size < wordsNeeded n := fun b hb hk => by
      rw [← hsize b hb hk]
      exact hnone _ (I.complete b hb hk)
    exact ⟨0, s.heap, hm, ⟨fun _ => hblocks, fun _ => rfl⟩, fun _ => rfl, fun h0 => absurd rfl h0⟩
  | inr hfound =>
    obtain ⟨x,hx,hle,hleast,hm⟩ := hfound
    have hfree := (scanned_initial _ _ _ _).subset hx
    obtain ⟨b,hb,hk,rfl,hbs⟩ := I.free_block hfree
    rw [hbs] at hle hm hleast
    obtain ⟨h',blocks',free',c,ht,S,I',hck,hcs,hce,hperm⟩ := takeFound_spec I hb hk he h4 hle
    rw [ht] at hm
    rw [hneed] at hx hle hleast
    have hc : c ∈ blocks' := (mem_takenBlocks.mp (hperm.mem_iff.mpr List.mem_cons_self)).1
    have hp : h'.pointer b.start ≠ 0 := by
      rw [← hcs, pointer_eq I' hc]
      omega
    have htaken : TakenAt h' b.start := by
      obtain ⟨h0,hfoot⟩ := I'.layout.tagged c hc (c.size+1) (by rw [Block.tag, hck]; rfl)
      rw [← hcs]
      exact (takenAt_of_tags (I'.layout.even c hc) (I'.layout.room c hc).1 (I'.layout.bounds hc)
        h0 hfoot).1
    refine ⟨_, _, hm, ⟨fun h0 => absurd h0 hp, fun hall => ?_⟩, fun h0 => absurd h0 hp, fun _ => ?_⟩
    · exact absurd (hall b hb hk) (by omega)
    · refine ⟨_, U.seen (wordsNeeded n), b, hb, hk, hx, hle, ?_, ?_, fun c hc hck hcx hfit => ?_⟩
      · rw [if_neg hp]
        rfl
      · rw [if_neg hp]
        exact htaken
      · have := hleast c.start hcx
        rw [hsize c hc hck] at this
        exact this hfit

/-- 24 bytes in a 256-byte heap with one allocation. -/
theorem malloc_best_fit_small : ∃ s : HeapState, s.live = [⟨4128, 24⟩] ∧
    ∃ blocks free, HeapInv s.heap blocks free ∧ ∃ p h', malloc s.heap 24 = .ok (p, h') ∧
      TakesBest s.heap blocks free (wordsNeeded 24) p h' := by
  obtain ⟨h,p,h',hi,hm,hp⟩ := small_run
  have h0 : (heapSystem (fun _ => 0) 4096 256).Reachable ⟨h, []⟩ := .init ⟨hi, rfl⟩
  have h1 := h0.step (.malloc (by decide) hm)
  refine ⟨_, ?_, malloc_best_fit (fun _ => 0) 4096 256 (by decide) (by decide) _ h1 24
    (by decide) (by decide)⟩
  rw [if_neg (by omega), hp]

end NetKernel.Heaps
