import Mathlib.Data.List.Perm.Subperm
import NetKernel.Lib.BestFit
import NetKernel.Memory.HeapLayout

/-! The search of `malloc` through the free list. Nothing here bounds the heap below its
64-bit address space. -/
namespace NetKernel.Heaps
open LinkedList BestFit

/-- What `malloc` relies on: the free list links the headers of available blocks that lie
apart inside the array, and the array inside the address space. -/
structure Usable (h : Heap) (free : List Nat) : Prop where
  links : Links 0 h.next h.prev h.avail free
  nodup : free.Nodup
  block : ∀ x ∈ free, 4 ≤ h.word x ∧ 2 ∣ h.word x ∧ x+h.word x ≤ h.len
  apart : ∀ x ∈ free, ∀ y ∈ free, x ≠ y → x+h.word x ≤ y ∨ y+h.word y ≤ x
  space : h.array+8*h.len ≤ 2^64

/-- What the search returns: nothing fitting, or a block of the free list with its size. -/
def Found (h : Heap) (free : List Nat) (entries : Nat) (r : Nat × Nat) : Prop :=
  r.2 = 0 ∨ r.2 ∈ free ∧ r.1 = h.size r.2 ∧ entries ≤ r.1

variable {h : Heap} {free : List Nat} {x n : Nat}

theorem Usable.tag (U : Usable h free) (hx : x ∈ free) :
    h.isTaken x = false ∧ h.size x = h.word x := by
  obtain ⟨-,he,-⟩ := U.block x hx
  simp only [Heap.isTaken, Heap.size, decide_eq_false_iff_not]
  omega

theorem Usable.ne_zero (U : Usable h free) (hx : x ∈ free) : x ≠ 0 := by
  rintro rfl
  exact Segment.ne_null U.links hx

theorem Usable.length_le (U : Usable h free) : free.length ≤ h.len := by
  have hsub : free ⊆ List.range h.len := by
    intro x hx
    obtain ⟨h4,-,hend⟩ := U.block x hx
    exact List.mem_range.mpr (by omega)
  have := (U.nodup.subperm hsub).length_le
  rwa [List.length_range] at this

theorem scan_eq (entries : Nat) (l : List Nat) (fuel countDown p q mx it : Nat)
    (hfuel : l.length < fuel) (hl : Segment 0 h.next h.prev q p l 0)
    (hav : ∀ x ∈ l, h.isTaken x = false) :
    scan h entries fuel countDown p mx it =
      .ok ((scanned h.size entries countDown l).foldl (better h.size entries) (mx, it)) := by
  induction l generalizing fuel countDown p q mx it with
  | nil =>
    obtain ⟨fuel,rfl⟩ := Nat.exists_eq_succ_of_ne_zero (Nat.ne_of_gt hfuel)
    exact if_pos hl
  | cons x xs ih =>
    obtain ⟨fuel,rfl⟩ := Nat.exists_eq_succ_of_ne_zero (Nat.ne_of_gt (Nat.zero_lt_of_lt hfuel))
    obtain ⟨rfl,hx,-,hxs⟩ := hl
    have hnt := hav p List.mem_cons_self
    have hrest := fun cd mx it => ih fuel cd (h.next p) p mx it (by simpa using hfuel) hxs
      fun y hy => hav y (List.mem_cons_of_mem _ hy)
    simp only [scan, if_neg hx, hnt, Bool.false_eq_true, if_false, scanned, fits,
      decide_eq_true_eq]
    by_cases hfit : entries ≤ h.size p
    · have hbest : better h.size entries (mx, it) p =
          if h.size p < mx then (h.size p, p) else (mx, it) := by
        simp [better, fits, hfit]
      rw [if_pos hfit, if_pos hfit, ← hbest]
      split
      · rfl
      · exact hrest _ _ _
    · have hbest : better h.size entries (mx, it) p = (mx, it) := by
        simp [better, fits, hfit]
      rw [if_neg hfit, if_neg hfit, List.foldl_cons, hbest]
      exact hrest _ _ _

/-- The indices that the loop of `malloc` looks at. -/
def visited (h : Heap) (entries : Nat) : Nat → Nat → Nat → List Nat
  | 0, _, _ => []
  | fuel+1, countDown, p =>
    if p = 0 then [] else
    p :: if entries ≤ h.size p then
      if countDown-1 = 0 ∨ h.size p = entries then []
      else visited h entries fuel (countDown-1) (h.next p)
    else visited h entries fuel countDown (h.next p)

theorem visited_eq (entries : Nat) (l : List Nat) (fuel countDown p q : Nat)
    (hfuel : l.length < fuel) (hl : Segment 0 h.next h.prev q p l 0) :
    visited h entries fuel countDown p = scanned h.size entries countDown l := by
  induction l generalizing fuel countDown p q with
  | nil =>
    obtain ⟨fuel,rfl⟩ := Nat.exists_eq_succ_of_ne_zero (Nat.ne_of_gt hfuel)
    exact if_pos hl
  | cons x xs ih =>
    obtain ⟨fuel,rfl⟩ := Nat.exists_eq_succ_of_ne_zero (Nat.ne_of_gt (Nat.zero_lt_of_lt hfuel))
    obtain ⟨rfl,hx,-,hxs⟩ := hl
    have hrest := fun cd => ih fuel cd (h.next p) p (by simpa using hfuel) hxs
    rw [visited, if_neg hx, scanned]
    simp only [fits, decide_eq_true_eq]
    by_cases hfit : entries ≤ h.size p
    · rw [if_pos hfit, if_pos hfit]
      split
      · rfl
      · rw [hrest]
    · rw [if_neg hfit, if_neg hfit, hrest]

/-- The search misses no block that fits, and what it finds is a smallest fit in the part
of the list that it scans. -/
theorem search_spec (U : Usable h free) (entries : Nat) :
    ∃ r, scan h entries (h.len+1) 20 h.avail uint64Max 0 = .ok r ∧
      Found h (scanned h.size entries 20 free) entries r ∧
      (r.2 = 0 → ∀ x ∈ free, h.size x < entries) ∧
      ∀ y ∈ scanned h.size entries 20 free, entries ≤ h.size y → r.1 ≤ h.size y := by
  have hlen := U.length_le
  refine ⟨_, scan_eq entries free (h.len+1) 20 h.avail 0 uint64Max 0 (by omega) U.links
    (fun x hx => (U.tag hx).1), ?_⟩
  have hpre := (scanned_initial h.size entries 20 free).subset
  have hbest := foldl_better h.size entries (uint64Max, 0) (scanned h.size entries 20 free)
  generalize (scanned h.size entries 20 free).foldl (better h.size entries) (uint64Max, 0) = r
    at hbest ⊢
  obtain ⟨hfrom,-,hleast⟩ := hbest
  have hmin : ∀ y ∈ scanned h.size entries 20 free, entries ≤ h.size y → r.1 ≤ h.size y :=
    fun y hy hf => hleast y hy (decide_eq_true hf)
  cases hfrom with
  | inl hnone =>
    refine ⟨Or.inl (by rw [hnone]), fun _ x hx => ?_, hmin⟩
    -- a fit would be smaller than the bound the search starts from
    have hno : ∀ y ∈ scanned h.size entries 20 free, fits h.size entries y = false := by
      intro y hy
      refine Bool.eq_false_iff.mpr fun hf => ?_
      have hle := hleast y hy hf
      obtain ⟨-,-,hend⟩ := U.block y (hpre hy)
      have hspace := U.space
      rw [hnone, (U.tag (hpre hy)).2, uint64Max] at hle
      omega
    exact Nat.lt_of_not_le (of_decide_eq_false (scanned_none (by decide) hno x hx))
  | inr hsome =>
    obtain ⟨x,hx,rfl,hf⟩ := hsome
    exact ⟨Or.inr ⟨hx, rfl, of_decide_eq_true hf⟩, fun h0 => absurd h0 (U.ne_zero (hpre hx)), hmin⟩

/-- `malloc` gives null when nothing fits, and takes a smallest fit of the scanned part
otherwise. -/
theorem malloc_search (U : Usable h free) (hn : n ≠ 0) :
    malloc h n = .ok (0, h) ∧ (∀ x ∈ free, h.size x < entriesFor n) ∨
    ∃ x ∈ scanned h.size (entriesFor n) 20 free, entriesFor n ≤ h.size x ∧
      (∀ y ∈ scanned h.size (entriesFor n) 20 free, entriesFor n ≤ h.size y →
        h.size x ≤ h.size y) ∧
      malloc h n = takeBlock h (entriesFor n) (h.size x) x >>= fun h => .ok (h.pointer x,
        if h.pointer x = 0 then h else { h with nMalloc := wrap (h.nMalloc+1) }) := by
  obtain ⟨⟨mx,it⟩,hs,hf,hnone,hleast⟩ := search_spec U (entriesFor n)
  have hm : malloc h n = (if it = 0 then .ok (0, h) else
      takeBlock h (entriesFor n) mx it >>= fun h => .ok (h.pointer it,
        if h.pointer it = 0 then h else { h with nMalloc := wrap (h.nMalloc+1) })) := by
    rw [malloc, if_neg hn, hs]
    rfl
  by_cases hit : it = 0
  · exact Or.inl ⟨hm.trans (if_pos hit), hnone hit⟩
  · obtain ⟨hmem,hsz,hle⟩ := hf.resolve_left hit
    obtain rfl : mx = h.size it := hsz
    exact Or.inr ⟨it, hmem, hle, hleast, hm.trans (if_neg hit)⟩

end NetKernel.Heaps
