import NetKernel.Lib.LinkedList
import NetKernel.Lib.Tiling
import NetKernel.Memory.Heap

/-! Blocks of the heap. A layout says how blocks tile the array and which of the
available ones are on the free list; a hole is a block whose words mean nothing yet.
Every operation of the heap is one change of layout. -/
namespace NetKernel.Heaps
open Function LinkedList Tiling

inductive Kind where
  | hole | avail | taken
deriving DecidableEq, Repr

structure Block where
  (start size : Nat)
  kind : Kind
deriving DecidableEq, Repr

/-- The word in the header and the footer of a block; a hole has none. -/
def Block.tag (b : Block) : Option Nat :=
  match b.kind with
  | .hole => none
  | .avail => some b.size
  | .taken => some (b.size+1)

/-- Header and footer agree and hold the tag. -/
def Tagged (word : Nat → Nat) (b : Block) : Prop :=
  ∀ t ∈ b.tag, word b.start = t ∧ word (b.start+b.size-1) = t

structure Layout (h : Heap) (blocks : List Block) (free : List Nat) : Prop where
  small : h.len < 2^31
  tiles : Tiles Block.start Block.size 0 blocks h.len
  even : ∀ b ∈ blocks, 2 ∣ b.size
  room : ∀ b ∈ blocks, 2 ≤ b.size ∧ (b.kind = .avail → 4 ≤ b.size)
  tagged : ∀ b ∈ blocks, Tagged h.word b
  links : Links 0 h.next h.prev h.avail free
  nodup : free.Nodup
  freeAvail : ∀ x ∈ free, ∃ b ∈ blocks, b.kind = .avail ∧ b.start = x

theorem mem_exchange {pre post : List Block} {b b' c : Block} (hc : c ∈ pre ++ b' :: post) :
    c = b' ∨ c ∈ pre ++ b :: post := by
  simp only [List.mem_append, List.mem_cons] at hc ⊢
  rcases hc with hc | hc | hc
  · exact Or.inr (Or.inl hc)
  · exact Or.inl hc
  · exact Or.inr (Or.inr (Or.inr hc))

namespace Layout
variable {h h' : Heap} {blocks pre post : List Block} {free free' : List Nat} {b c : Block}
  {i n : Nat} {k : Kind}

theorem even_start (L : Layout h blocks free) (hb : b ∈ blocks) : 2 ∣ b.start :=
  L.tiles.dvd (Nat.dvd_zero 2) L.even hb

theorem bounds (L : Layout h blocks free) (hb : b ∈ blocks) : b.start+b.size ≤ h.len :=
  (L.tiles.bounds hb).2

theorem even_free (L : Layout h blocks free) {x : Nat} (hx : x ∈ free) : 2 ∣ x := by
  obtain ⟨b,hb,-,rfl⟩ := L.freeAvail x hx
  exact L.even_start hb

theorem apart (L : Layout h blocks free) (hb : b ∈ blocks) (hc : c ∈ blocks) (hne : b ≠ c) :
    b.start+b.size ≤ c.start ∨ c.start+c.size ≤ b.start := L.tiles.apart hb hc hne

theorem start_ne (L : Layout h (pre ++ b :: post) free) (hc : c ∈ pre ++ post) :
    c.start ≠ b.start := by
  obtain ⟨hb,ha⟩ := L.tiles.order
  have hb2 := (L.room b (by simp)).1
  cases List.mem_append.mp hc with
  | inl hc =>
    have hc2 := (L.room c (List.mem_append_left _ hc)).1
    have := hb c hc
    omega
  | inr hc =>
    have := ha c hc
    omega

/-- A layout survives writes to the link words of available blocks that leave a
good free list. -/
theorem relink (L : Layout h blocks free) (hlen : h'.len = h.len)
    (hw : ∀ j, (∀ b ∈ blocks, b.kind = .avail → j ≠ b.start+1 ∧ j ≠ b.start+2) →
      h'.word j = h.word j)
    (hl : Links 0 h'.next h'.prev h'.avail free') (hd : free'.Nodup)
    (hf : ∀ x ∈ free', ∃ b ∈ blocks, b.kind = .avail ∧ b.start = x) :
    Layout h' blocks free' := by
  refine ⟨by rw [hlen]; exact L.small, by rw [hlen]; exact L.tiles, L.even, L.room, ?_, hl, hd, hf⟩
  intro c hc t ht
  obtain ⟨h0,h1⟩ := L.tagged c hc t ht
  have hc2 := (L.room c hc).1
  have hsep : ∀ b ∈ blocks, b.kind = .avail →
      (c.start ≠ b.start+1 ∧ c.start ≠ b.start+2) ∧
      (c.start+c.size-1 ≠ b.start+1 ∧ c.start+c.size-1 ≠ b.start+2) := by
    intro b hb hk
    have hb4 := (L.room b hb).2 hk
    by_cases he : b = c
    · subst he; omega
    · have := L.apart hb hc he
      omega
  exact ⟨by rw [hw _ fun b hb hk => (hsep b hb hk).1, h0],
    by rw [hw _ fun b hb hk => (hsep b hb hk).2, h1]⟩

theorem refill (L : Layout h (pre ++ ⟨i, n, .hole⟩ :: post) free) (hlen : h'.len = h.len)
    (hav : h'.avail = h.avail) (hw : ∀ j, j < i ∨ i+n ≤ j → h'.word j = h.word j)
    (ht : Tagged h'.word ⟨i, n, k⟩) (hk : k = .avail → 4 ≤ n) :
    Layout h' (pre ++ ⟨i, n, k⟩ :: post) free := by
  have hmem : (⟨i, n, .hole⟩ : Block) ∈ pre ++ ⟨i, n, .hole⟩ :: post := by simp
  have hold : ∀ c ∈ pre ++ ⟨i, n, k⟩ :: post, c = ⟨i, n, k⟩ ∨
      c ∈ pre ++ ⟨i, n, .hole⟩ :: post ∧ (c.start+c.size ≤ i ∨ i+n ≤ c.start) := by
    intro c hc
    obtain ⟨hb,ha⟩ := L.tiles.order
    simp only [List.mem_append, List.mem_cons] at hc ⊢
    rcases hc with hc | hc | hc
    · exact Or.inr ⟨Or.inl hc, Or.inl (hb c hc)⟩
    · exact Or.inl hc
    · exact Or.inr ⟨Or.inr (Or.inr hc), Or.inr (ha c hc)⟩
  have hfree : ∀ x ∈ free, ∃ c ∈ pre ++ ⟨i, n, k⟩ :: post, c.kind = .avail ∧ c.start = x ∧
      4 ≤ c.size ∧ (c.start+c.size ≤ i ∨ i+n ≤ c.start) := by
    intro x hx
    obtain ⟨c,hc,hck,hcx⟩ := L.freeAvail x hx
    have h4 := (L.room c hc).2 hck
    have hne : c ≠ ⟨i, n, .hole⟩ := by rintro rfl; cases hck
    exact ⟨c, (mem_exchange hc).resolve_left hne, hck, hcx, h4, L.apart hc hmem hne⟩
  refine ⟨by rw [hlen]; exact L.small, ?_, ?_, ?_, ?_, ?_, L.nodup, ?_⟩
  · rw [hlen]
    have hold : Tiles Block.start Block.size 0 (pre ++ ([⟨i, n, .hole⟩] ++ post)) h.len := L.tiles
    exact hold.replace [⟨i, n, k⟩] fun _ _ ht => ht
  · intro c hc
    cases hold c hc with
    | inl he => rw [he]; exact L.even ⟨i, n, .hole⟩ hmem
    | inr ho => exact L.even c ho.1
  · intro c hc
    cases hold c hc with
    | inl he => rw [he]; exact ⟨(L.room ⟨i, n, .hole⟩ hmem).1, hk⟩
    | inr ho => exact L.room c ho.1
  · intro c hc t htc
    cases hold c hc with
    | inl he => rw [he] at htc ⊢; exact ht t htc
    | inr ho =>
      obtain ⟨hm,ha⟩ := ho
      have h2 := (L.room c hm).1
      obtain ⟨h0,h1⟩ := L.tagged c hm t htc
      exact ⟨by rw [hw _ (by omega), h0], by rw [hw _ (by omega), h1]⟩
  · rw [hav]
    refine Segment.congr L.links (fun x hx => ?_) (fun x hx => ?_)
    · obtain ⟨c,-,-,rfl,h4,ha⟩ := hfree x hx
      exact hw _ (by omega)
    · obtain ⟨c,-,-,rfl,h4,ha⟩ := hfree x hx
      exact hw _ (by omega)
  · intro x hx
    obtain ⟨c,hc,hck,hcx,-⟩ := hfree x hx
    exact ⟨c, hc, hck, hcx⟩

/-- Blocks that are not on the free list may be forgotten: they become any holes that
tile the same words. -/
theorem erase {M : List Block} (L : Layout h (pre ++ (M ++ post)) free) (M' : List Block)
    (hfree : ∀ b ∈ M, b.start ∉ free)
    (ht : ∀ lo hi, Tiles Block.start Block.size lo M hi → Tiles Block.start Block.size lo M' hi)
    (hM : ∀ b ∈ M', b.kind = .hole ∧ 2 ∣ b.size ∧ 2 ≤ b.size) :
    Layout h (pre ++ (M' ++ post)) free := by
  have hold : ∀ c ∈ pre ++ (M' ++ post), c ∈ M' ∨ c ∈ pre ++ (M ++ post) := by
    intro c hc
    simp only [List.mem_append] at hc ⊢
    tauto
  refine ⟨L.small, L.tiles.replace M' ht, ?_, ?_, ?_, L.links, L.nodup, ?_⟩
  · intro c hc
    cases hold c hc with
    | inl hn => exact (hM c hn).2.1
    | inr ho => exact L.even c ho
  · intro c hc
    cases hold c hc with
    | inl hn => exact ⟨(hM c hn).2.2, fun hk => by rw [(hM c hn).1] at hk; cases hk⟩
    | inr ho => exact L.room c ho
  · intro c hc t htc
    cases hold c hc with
    | inl hn => rw [Block.tag, (hM c hn).1] at htc; cases htc
    | inr ho => exact L.tagged c ho t htc
  · intro x hx
    obtain ⟨c,hc,hck,rfl⟩ := L.freeAvail x hx
    refine ⟨c, ?_, hck, rfl⟩
    simp only [List.mem_append] at hc ⊢
    rcases hc with hc | hc | hc
    · exact Or.inl hc
    · exact absurd hx (hfree c hc)
    · exact Or.inr (Or.inr hc)

end Layout

/-! The operations. -/

/-- The parts of the heap that no operation on blocks changes. -/
structure SameHeap (h h' : Heap) : Prop where
  array : h'.array = h.array
  len : h'.len = h.len
  nMalloc : h'.nMalloc = h.nMalloc
  nFree : h'.nFree = h.nFree

theorem SameHeap.refl (h : Heap) : SameHeap h h := ⟨rfl, rfl, rfl, rfl⟩

theorem SameHeap.trans {a b c : Heap} (h : SameHeap a b) (k : SameHeap b c) : SameHeap a c :=
  ⟨k.array.trans h.array, k.len.trans h.len, k.nMalloc.trans h.nMalloc, k.nFree.trans h.nFree⟩

section Remove
variable (h : Heap) (x : Nat)

theorem remove_same : SameHeap h (h.remove x) := by
  simp only [Heap.remove]
  split <;> split <;> exact ⟨rfl, rfl, rfl, rfl⟩

theorem remove_avail : (h.remove x).avail = if h.prev x = 0 then h.next x else h.avail := by
  simp only [Heap.remove]
  split <;> split <;> rfl

theorem remove_word (j : Nat) : (h.remove x).word j =
    if h.next x ≠ 0 ∧ j = h.next x+2 then h.prev x
    else if h.prev x ≠ 0 ∧ j = h.prev x+1 then h.next x else h.word j := by
  simp only [Heap.remove]
  by_cases hp : h.prev x = 0 <;> by_cases hn : h.next x = 0 <;>
    simp [hp, hn, Heap.setNext, Heap.setPrev, Heap.store, update_apply]

end Remove

theorem remove_layout {h : Heap} {blocks : List Block} {l r : List Nat} {x : Nat}
    (L : Layout h blocks (l ++ x :: r)) : Layout (h.remove x) blocks (l ++ r) := by
  obtain ⟨hpm,hnm⟩ := L.links.neighbours
  have hmem : ∀ y, y ∈ l ++ r → y ∈ l ++ x :: r := by
    intro y hy
    simp only [List.mem_append, List.mem_cons] at hy ⊢
    tauto
  have hpe : 2 ∣ h.prev x := by
    cases hpm with
    | inl h0 => rw [h0]; exact Nat.dvd_zero 2
    | inr hm => exact L.even_free (hmem _ (List.mem_append_left _ hm))
  have hne : 2 ∣ h.next x := by
    cases hnm with
    | inl h0 => rw [h0]; exact Nat.dvd_zero 2
    | inr hm => exact L.even_free (hmem _ (List.mem_append_right _ hm))
  have hd : (l ++ r).Nodup := L.nodup.sublist (by simp)
  refine L.relink (remove_same h x).len ?_ ?_ hd fun y hy => L.freeAvail y (hmem y hy)
  · intro j hj
    have hfree : ∀ y ∈ l ++ r, j ≠ y+1 ∧ j ≠ y+2 := by
      intro y hy
      obtain ⟨b,hb,hk,rfl⟩ := L.freeAvail y (hmem y hy)
      exact hj b hb hk
    rw [remove_word, if_neg, if_neg]
    · rintro ⟨h0,he⟩
      exact (hfree _ (List.mem_append_left _ (hpm.resolve_left h0))).1 he
    · rintro ⟨h0,he⟩
      exact (hfree _ (List.mem_append_right _ (hnm.resolve_left h0))).2 he
  · have hu := L.links.unlink L.nodup
    rw [remove_avail]
    refine Segment.congr hu (fun y hy => ?_) (fun y hy => ?_)
    · have hye := L.even_free (hmem y hy)
      rw [Heap.next, remove_word, if_neg (by omega)]
      by_cases hp : h.prev x = 0
      · simp [hp, Heap.next]
      · simp [hp, update_apply, Heap.next]
    · have hye := L.even_free (hmem y hy)
      rw [Heap.prev, remove_word]
      by_cases hn : h.next x = 0
      · rw [if_neg (by omega), if_neg (by omega), if_pos hn]; rfl
      · rw [if_neg hn, update_apply]
        by_cases he : y = h.next x
        · rw [if_pos (by omega), if_pos he]
        · rw [if_neg (by omega), if_neg (by omega), if_neg he]; rfl

section Make
variable {h : Heap} {pre post : List Block} {free : List Nat} {i n : Nat}

theorem footer_store (h : Heap) (i x n : Nat) (hx : x - x % 2 = n) (hn : 1 ≤ n)
    (hb : i+n < 2^64) : (h.store i x).footerFromHeader i = i+n-1 := by
  simp only [Heap.footerFromHeader, Heap.store, Heap.size, update_self, hx, sub64]
  omega

theorem makeTaken_eq (h : Heap) (hn : n % 2 = 0) (h1 : 1 ≤ n) (hb : i+n < 2^64) :
    h.makeTaken i n = .ok ((h.store i (n+1)).store (i+n-1) (n+1)) := by
  have hf := footer_store h i (n+1) n (by omega) h1 hb
  rw [← hf]
  exact if_neg (by omega)

theorem makeAvail_eq (h : Heap) (hn : n % 2 = 0) (h1 : 1 ≤ n) (hb : i+n < 2^64)
    (filled : Heap)
    (hfill : filled = (((h.store i n).store (i+n-1) n).setNext i h.avail).setPrev i 0) :
    h.makeAvail i n = .ok { (if h.avail = 0 then filled else filled.setPrev h.avail i) with
      avail := i } := by
  have hf := footer_store h i n n (by omega) h1 hb
  rw [hfill, ← hf]
  exact if_neg (by omega)

theorem makeTaken_layout (L : Layout h (pre ++ ⟨i, n, .hole⟩ :: post) free) :
    ∃ h', h.makeTaken i n = .ok h' ∧ SameHeap h h' ∧
      Layout h' (pre ++ ⟨i, n, .taken⟩ :: post) free := by
  have hmem : (⟨i, n, .hole⟩ : Block) ∈ pre ++ ⟨i, n, .hole⟩ :: post := by simp
  have heven : 2 ∣ n := L.even _ hmem
  have h2 : 2 ≤ n := (L.room _ hmem).1
  have hb : i+n ≤ h.len := L.bounds hmem
  have hsmall := L.small
  refine ⟨_, makeTaken_eq h (by omega) (by omega) (by omega), ⟨rfl, rfl, rfl, rfl⟩, ?_⟩
  refine L.refill rfl rfl (fun j hj => ?_) ?_ (by intro hk; cases hk)
  · simp only [Heap.store]
    rw [update_of_ne (by omega), update_of_ne (by omega)]
  · rintro t ⟨⟩
    simp only [Heap.store]
    refine ⟨?_, by rw [update_self]⟩
    rw [update_of_ne (by omega), update_self]

theorem hole_not_free (L : Layout h (pre ++ ⟨i, n, .hole⟩ :: post) free) : i ∉ free := by
  intro hi
  have hmem : (⟨i, n, .hole⟩ : Block) ∈ pre ++ ⟨i, n, .hole⟩ :: post := by simp
  have h2 : 2 ≤ n := (L.room _ hmem).1
  obtain ⟨b,hm,hk,hs⟩ := L.freeAvail i hi
  have h4 := (L.room b hm).2 hk
  have hapart := L.apart hm hmem (by rintro rfl; cases hk)
  simp only at hapart
  omega

theorem fillAvail_layout (L : Layout h (pre ++ ⟨i, n, .hole⟩ :: post) free) (h4 : 4 ≤ n)
    (filled : Heap)
    (hfill : filled = (((h.store i n).store (i+n-1) n).setNext i h.avail).setPrev i 0) :
    Layout filled (pre ++ ⟨i, n, .avail⟩ :: post) free ∧ filled.next i = h.avail ∧
      filled.prev i = 0 := by
  subst hfill
  refine ⟨L.refill rfl rfl (fun j hj => ?_) ?_ fun _ => h4, ?_, ?_⟩
  · simp only [Heap.setNext, Heap.setPrev, Heap.store]
    rw [update_of_ne (by omega), update_of_ne (by omega), update_of_ne (by omega),
      update_of_ne (by omega)]
  · rintro t ⟨⟩
    simp only [Heap.setNext, Heap.setPrev, Heap.store]
    refine ⟨?_, ?_⟩
    · rw [update_of_ne (by omega), update_of_ne (by omega), update_of_ne (by omega), update_self]
    · rw [update_of_ne (by omega), update_of_ne (by omega), update_self]
  · simp only [Heap.next, Heap.setNext, Heap.setPrev, Heap.store]
    rw [update_of_ne (by omega), update_self]
  · simp only [Heap.prev, Heap.setPrev, Heap.store, update_self]

/-- A hole of at least four words becomes an available block, first on the free list. -/
theorem makeAvail_layout (L : Layout h (pre ++ ⟨i, n, .hole⟩ :: post) free) (h4 : 4 ≤ n)
    (h0 : i ≠ 0) : ∃ h', h.makeAvail i n = .ok h' ∧ SameHeap h h' ∧
      Layout h' (pre ++ ⟨i, n, .avail⟩ :: post) (i :: free) := by
  have hmem : (⟨i, n, .hole⟩ : Block) ∈ pre ++ ⟨i, n, .hole⟩ :: post := by simp
  have heven : 2 ∣ n := L.even _ hmem
  have hie : 2 ∣ i := L.even_start hmem
  have hb : i+n ≤ h.len := L.bounds hmem
  have hsmall := L.small
  have hnot := hole_not_free L
  let filled : Heap := (((h.store i n).store (i+n-1) n).setNext i h.avail).setPrev i 0
  obtain ⟨F,hnext,hprev⟩ := fillAvail_layout L h4 filled rfl
  have hnew : (⟨i, n, .avail⟩ : Block) ∈ pre ++ ⟨i, n, .avail⟩ :: post := by simp
  have hhead : h.avail = 0 ∨ h.avail ∈ free := Segment.head_mem L.links
  have hhe : 2 ∣ h.avail := by
    cases hhead with
    | inl hz => rw [hz]; exact Nat.dvd_zero 2
    | inr hm => exact L.even_free hm
  refine ⟨_, makeAvail_eq h (by omega) (by omega) (by omega) filled rfl, ?_, ?_⟩
  · split <;> exact ⟨rfl, rfl, rfl, rfl⟩
  have hw : ∀ j, (if h.avail = 0 then filled else filled.setPrev h.avail i).word j =
      if h.avail ≠ 0 ∧ j = h.avail+2 then i else filled.word j := by
    intro j
    by_cases hz : h.avail = 0 <;> simp [hz, Heap.setPrev, Heap.store, update_apply]
  refine F.relink ?_ (fun j hj => ?_) ?_ (List.nodup_cons.mpr ⟨hnot, L.nodup⟩) ?_
  · split <;> rfl
  · rw [hw, if_neg]
    rintro ⟨hz,he⟩
    obtain ⟨b,hb,hk,hs⟩ := F.freeAvail _ (hhead.resolve_left hz)
    exact (hj b hb hk).2 (by rw [hs]; exact he)
  · have hp := F.links.push F.nodup h0 hnot
    refine Segment.congr hp (fun y hy => ?_) (fun y hy => ?_)
    · have hye : 2 ∣ y := by
        cases List.mem_cons.mp hy with
        | inl he => rw [he]; exact hie
        | inr hm => exact L.even_free hm
      rw [Heap.next, hw, if_neg (by omega), update_apply]
      split
      · rename_i he
        rw [he]; exact hnext
      · rfl
    · have hself : update filled.prev i 0 = filled.prev := by
        rw [← hprev]; exact update_eq_self i filled.prev
      have hav : filled.avail = h.avail := rfl
      rw [Heap.prev, hw, hself, hav]
      by_cases hz : h.avail = 0
      · rw [if_neg (by omega), if_pos hz]; rfl
      · rw [if_neg hz, update_apply]
        by_cases he : y = h.avail
        · rw [if_pos (by omega), if_pos he]
        · rw [if_neg (by omega), if_neg he]; rfl
  · intro y hy
    cases List.mem_cons.mp hy with
    | inl he => exact ⟨_, hnew, rfl, he.symm⟩
    | inr hm => exact F.freeAvail y hm

end Make
end NetKernel.Heaps
