import Mathlib.Order.Nat
import NetKernel.Lib.Runs
import NetKernel.Lib.Spans
import NetKernel.Memory.Heap

/-! The mapping lists of `mmap` and `munmap`. An address is a number below 2^64; a file is
an element of `ν`. -/
namespace NetKernel.Vmes
open Runs Spans
open Heaps (wrap sub64)

abbrev pageSize : Nat := 4096
abbrev privateBase : Nat := 4096
abbrev configuredMaxPa : Nat := 0x8000000
abbrev sharedLimit : Nat := 0xFFFFFFFF80000000

/-- A mapped region; no `node` is an anonymous one. -/
structure Vme (ν : Type*) where
  start : Nat
  finish : Nat
  node : Option ν
  offset : Nat
  shared : Bool
deriving DecidableEq, Repr

def pageAlignUp (value : Nat) : Nat := wrap (value+4095) / pageSize * pageSize

def sharedBase (hhdmOffset : Nat) : Nat := wrap (hhdmOffset+configuredMaxPa)

def fitsInRange (start length limit : Nat) : Bool :=
  decide (start < limit) && decide (length ≤ sub64 limit start)

variable {ν : Type*}

def findVme (head : List (Vme ν)) (va : Nat) : Option (Vme ν) := spanAt Vme.start Vme.finish head va

/-- The walk of `insert_vme` from `candidate` on, with the new region put where it ends. -/
def insertFrom (limit length : Nat) (file : Option ν) (offset : Nat) (shared : Bool)
    (candidate : Nat) : List (Vme ν) → Option (Nat × List (Vme ν))
  | [] => place []
  | next :: rest =>
    if candidate ≤ next.start ∧ length ≤ sub64 next.start candidate then place (next :: rest)
    else (insertFrom limit length file offset shared next.finish rest).map fun (va, vmes) =>
      (va, next :: vmes)
where
  place (next : List (Vme ν)) : Option (Nat × List (Vme ν)) :=
    if fitsInRange candidate length limit then
      some (candidate, ⟨candidate, wrap (candidate+length), file, offset, shared⟩ :: next)
    else none

def insertVme (head : List (Vme ν)) (base limit length : Nat) (file : Option ν) (offset : Nat)
    (shared : Bool) : Option (Nat × List (Vme ν)) :=
  insertFrom limit length file offset shared base head

/-- The pages a loop from `first` to `last` visits. -/
def pagesOf (first last : Nat) : List Nat :=
  List.range' first ((last-first+4095)/pageSize) pageSize

/-- A round of the loop of `munmap`: what is left of a region, and the pages it unmaps. -/
def unmapVme (start finish : Nat) (curr : Vme ν) : List (Vme ν) × List Nat :=
  if curr.finish ≤ start ∨ finish ≤ curr.start then ([curr], [])
  else
    let unmapStart := if start < curr.start then curr.start else start
    let unmapEnd := if curr.finish < finish then curr.finish else finish
    let pages := pagesOf unmapStart unmapEnd
    let offset := wrap (curr.offset+sub64 unmapEnd curr.start)
    if curr.start < unmapStart ∧ unmapEnd < curr.finish then
      ([{ curr with finish := unmapStart }, ⟨unmapEnd, curr.finish, curr.node, offset, false⟩],
        pages)
    else if unmapStart = curr.start ∧ unmapEnd < curr.finish then
      ([{ curr with start := unmapEnd, offset := offset }], pages)
    else if curr.start < unmapStart ∧ unmapEnd = curr.finish then
      ([{ curr with finish := unmapStart }], pages)
    else ([], pages)

/-- The loop of `munmap`: the regions that stay, and the pages it unmaps on the way. -/
def munmapFrom (start finish : Nat) : List (Vme ν) → List (Vme ν) × List Nat
  | [] => ([], [])
  | curr :: next =>
    let (kept, pages) := unmapVme start finish curr
    let (rest, more) := munmapFrom start finish next
    (kept ++ rest, pages ++ more)

/-- The list of one thread and the one all share. -/
structure Mappings (ν : Type*) where
  vmes : List (Vme ν)
  sharedVmes : List (Vme ν)

/-- `VMM::mmap`; `none` is `(void *)-1`. -/
def Mappings.mmap (hhdmOffset : Nat) (s : Mappings ν) (length : Nat) (flags : Int32)
    (file : Option ν) (offset : Nat) : Option Nat × Mappings ν :=
  if length = 0 then (none, s) else
  if offset % pageSize ≠ 0 then (none, s) else
  let length := pageAlignUp length
  let anonymous := flags &&& 2 ≠ 0
  let shared := flags &&& 1 ≠ 0
  if decide anonymous ≠ file.isNone then (none, s) else
  if shared then
    match insertVme s.sharedVmes (sharedBase hhdmOffset) sharedLimit length file offset true with
    | some (va, vmes) => (some va, { s with sharedVmes := vmes })
    | none => (none, s)
  else
    match insertVme s.vmes privateBase hhdmOffset length file offset false with
    | some (va, vmes) => (some va, { s with vmes := vmes })
    | none => (none, s)

/-- `VMM::munmap`: what it returns, the lists and the pages it unmapped. -/
def Mappings.munmap (hhdmOffset : Nat) (s : Mappings ν) (addr length : Nat) :
    Int × Mappings ν × List Nat :=
  if addr % pageSize ≠ 0 then (-1, s, []) else
  if length = 0 then (-1, s, []) else
  let length := pageAlignUp length
  let finish := wrap (addr+length)
  if finish < addr then (-1, s, []) else
  if addr < privateBase ∨ hhdmOffset < finish then (-1, s, []) else
  if sharedBase hhdmOffset ≤ addr ∨ sharedBase hhdmOffset < finish then (-1, s, []) else
  let (vmes, pages) := munmapFrom addr finish s.vmes
  (0, { s with vmes := vmes }, pages)

/-! What the regions map. -/

/-- The file behind an address, with the offset of its byte. -/
def backing (head : List (Vme ν)) (va : Nat) : Option (Option ν × Nat) :=
  (findVme head va).map fun vme => (vme.node, wrap (vme.offset+(va-vme.start)))

def Mapped (head : List (Vme ν)) (va : Nat) : Prop := (findVme head va).isSome

instance (head : List (Vme ν)) (va : Nat) : Decidable (Mapped head va) :=
  inferInstanceAs (Decidable ((findVme head va).isSome = true))

def Vme.Aligned (vme : Vme ν) : Prop := vme.start % pageSize = 0 ∧ vme.finish % pageSize = 0

/-- The list is sorted, its regions page-aligned, not empty, apart and in the range. -/
structure WellFormed (base limit : Nat) (head : List (Vme ν)) : Prop where
  laid : Laid Vme.start Vme.finish base head limit
  aligned : ∀ vme ∈ head, vme.Aligned

variable {head next : List (Vme ν)} {curr : Vme ν} {va start finish : Nat}

theorem backing_cons : backing (curr :: next) va =
    if curr.start ≤ va ∧ va < curr.finish then
      some (curr.node, wrap (curr.offset+(va-curr.start)))
    else backing next va := by
  rw [backing, findVme, spanAt_cons]
  split <;> rfl

theorem mapped_cons : Mapped (curr :: next) va ↔
    curr.start ≤ va ∧ va < curr.finish ∨ Mapped next va := by
  rw [Mapped, findVme, spanAt_cons]
  split
  · simp [*]
  · simp [*, Mapped, findVme]

theorem mapped_iff_backing : Mapped head va ↔ (backing head va).isSome := by
  rw [Mapped, backing, Option.isSome_map]

theorem mapped_iff : Mapped head va ↔ ∃ vme ∈ head, vme.start ≤ va ∧ va < vme.finish := by
  simp only [Mapped, findVme, spanAt, List.find?_isSome, decide_eq_true_eq]

theorem mapped_append : Mapped (head ++ next) va ↔ Mapped head va ∨ Mapped next va := by
  simp only [mapped_iff, List.mem_append, or_and_right, exists_or]

/-! One round of `munmap`. -/

/-- The part of a region before `first`, if there is one. -/
def before (first : Nat) (curr : Vme ν) : List (Vme ν) :=
  if curr.start < first then [{ curr with finish := first }] else []

/-- The part from `last` on, if there is one. -/
def after (last : Nat) (shared : Bool) (curr : Vme ν) : List (Vme ν) :=
  if last < curr.finish then
    [⟨last, curr.finish, curr.node, wrap (curr.offset+sub64 last curr.start), shared⟩]
  else []

/-- A round keeps a region that is outside the range, and of any other the parts before
and after the range. -/
theorem unmapVme_cases (hpos : curr.start ≤ curr.finish) (hrange : start ≤ finish) :
    (curr.finish ≤ start ∨ finish ≤ curr.start) ∧ unmapVme start finish curr = ([curr], []) ∨
    ∃ first last shared, first = max start curr.start ∧ last = min finish curr.finish ∧
      first ≤ last ∧ unmapVme start finish curr =
        (before first curr ++ after last shared curr, pagesOf first last) := by
  by_cases hout : curr.finish ≤ start ∨ finish ≤ curr.start
  · exact Or.inl ⟨hout, if_pos hout⟩
  refine Or.inr ?_
  have hfirst : (if start < curr.start then curr.start else start) = max start curr.start := by
    split <;> omega
  have hlast : (if curr.finish < finish then curr.finish else finish) =
      min finish curr.finish := by
    split <;> omega
  simp only [unmapVme, if_neg hout, hfirst, hlast]
  generalize hf : max start curr.start = first
  generalize hl : min finish curr.finish = last
  refine ⟨first, last, if curr.start < first then false else curr.shared, rfl, rfl, by omega, ?_⟩
  by_cases hb : curr.start < first
  · by_cases ha : last < curr.finish
    · simp [before, after, hb, ha]
    · have heq : last = curr.finish := by omega
      simp [before, after, hb, heq]
  · have hfe : first = curr.start := by omega
    by_cases ha : last < curr.finish
    · simp [before, after, hfe, ha]
    · simp [before, after, hfe, ha]

theorem clamp_aligned (hs : start % pageSize = 0) (hf : finish % pageSize = 0)
    (hc : curr.Aligned) :
    max start curr.start % pageSize = 0 ∧ min finish curr.finish % pageSize = 0 := by
  obtain ⟨hcs,hcf⟩ := hc
  simp only [pageSize] at *
  omega

theorem before_along {first lo : Nat} (h : lo ≤ curr.start) (hf : lo ≤ first) :
    Along Vme.start Vme.finish lo (before first curr) first := by
  unfold before
  split
  · rename_i hb
    exact ⟨h, hb.le, Nat.le_refl _⟩
  · exact hf

theorem after_along {last : Nat} {shared : Bool} (h : last ≤ curr.finish) :
    Along Vme.start Vme.finish last (after last shared curr) curr.finish := by
  unfold after
  split
  · rename_i ha
    exact ⟨Nat.le_refl _, ha.le, Nat.le_refl _⟩
  · exact h

theorem unmapVme_along {lo : Nat} (hlo : lo ≤ curr.start) (hpos : curr.start ≤ curr.finish)
    (hrange : start ≤ finish) :
    Along Vme.start Vme.finish lo (unmapVme start finish curr).1 curr.finish := by
  obtain ⟨-,h⟩ | ⟨first,last,shared,hf,hl,hle,h⟩ := unmapVme_cases hpos hrange
  · rw [h]
    exact ⟨hlo, hpos, Nat.le_refl _⟩
  · rw [h]
    refine (before_along hlo (by omega)).append ?_
    exact (after_along (by omega)).mono hle

theorem mem_unmapVme_kept (hpos : curr.start ≤ curr.finish) (hrange : start ≤ finish)
    {vme : Vme ν} (hv : vme ∈ (unmapVme start finish curr).1) :
    vme = curr ∨ vme.start < vme.finish ∧
      (vme.start = curr.start ∨ vme.start = min finish curr.finish) ∧
      (vme.finish = curr.finish ∨ vme.finish = max start curr.start) := by
  obtain ⟨-,h⟩ | ⟨first,last,shared,hf,hl,-,h⟩ := unmapVme_cases hpos hrange
  · rw [h] at hv
    exact Or.inl (List.mem_singleton.mp hv)
  · rw [h] at hv
    refine Or.inr ?_
    cases List.mem_append.mp hv with
    | inl hb =>
      unfold before at hb
      split at hb
      · rename_i hlt
        rw [List.mem_singleton.mp hb]
        exact ⟨hlt, Or.inl rfl, Or.inr hf⟩
      · cases hb
    | inr ha =>
      unfold after at ha
      split at ha
      · rename_i hlt
        rw [List.mem_singleton.mp ha]
        exact ⟨hlt, Or.inr hl, Or.inl rfl⟩
      · cases ha

theorem unmapVme_aligned (hpos : curr.start ≤ curr.finish) (hrange : start ≤ finish)
    (hs : start % pageSize = 0) (hf : finish % pageSize = 0) (hc : curr.Aligned) :
    ∀ vme ∈ (unmapVme start finish curr).1, vme.Aligned := by
  intro vme hv
  obtain ⟨hfirst,hlast⟩ := clamp_aligned hs hf hc
  obtain rfl | ⟨-,h1,h2⟩ := mem_unmapVme_kept hpos hrange hv
  · exact hc
  · obtain ⟨hcs,hcf⟩ := hc
    constructor
    · obtain h1 | h1 := h1
      · rw [h1, hcs]
      · rw [h1, hlast]
    · obtain h2 | h2 := h2
      · rw [h2, hcf]
      · rw [h2, hfirst]

theorem offset_trimmed {offset first mid : Nat} (hf : first ≤ mid) (hm : mid ≤ va)
    (hva : va < 2^64) :
    wrap (wrap (offset+sub64 mid first)+(va-mid)) = wrap (offset+(va-first)) := by
  simp only [wrap, sub64]
  omega

theorem backing_unmapVme (hpos : curr.start ≤ curr.finish) (hlimit : curr.finish < 2^64)
    (hrange : start ≤ finish) : backing ((unmapVme start finish curr).1 ++ next) va =
      if curr.start ≤ va ∧ va < curr.finish ∧ ¬(start ≤ va ∧ va < finish) then
        some (curr.node, wrap (curr.offset+(va-curr.start)))
      else backing next va := by
  obtain ⟨hout,h⟩ | ⟨first,last,shared,hf,hl,hlt,h⟩ := unmapVme_cases hpos hrange
  · rw [h, List.singleton_append, backing_cons]
    by_cases hin : curr.start ≤ va ∧ va < curr.finish
    · rw [if_pos hin, if_pos ⟨hin.1, hin.2, by omega⟩]
    · rw [if_neg hin, if_neg (by omega)]
  · have hafter : backing (after last shared curr ++ next) va =
        if last ≤ va ∧ va < curr.finish then
          some (curr.node, wrap (curr.offset+(va-curr.start)))
        else backing next va := by
      unfold after
      split
      · rw [List.singleton_append, backing_cons]
        dsimp only
        split
        · rename_i hin
          rw [offset_trimmed (by omega) hin.1 (by omega)]
        · rfl
      · rw [List.nil_append, if_neg (by omega)]
    have hbefore : backing (before first curr ++ (after last shared curr ++ next)) va =
        if curr.start ≤ va ∧ va < first then
          some (curr.node, wrap (curr.offset+(va-curr.start)))
        else backing (after last shared curr ++ next) va := by
      unfold before
      split
      · rw [List.singleton_append, backing_cons]
      · rw [List.nil_append, if_neg (by omega)]
    rw [h, List.append_assoc, hbefore, hafter]
    by_cases hb : curr.start ≤ va ∧ va < first
    · rw [if_pos hb, if_pos (by omega)]
    · rw [if_neg hb]
      by_cases ha : last ≤ va ∧ va < curr.finish
      · rw [if_pos ha, if_pos (by omega)]
      · rw [if_neg ha, if_neg (by omega)]

theorem mem_pagesOf {first last page : Nat} (hf : first % pageSize = 0)
    (hl : last % pageSize = 0) :
    page ∈ pagesOf first last ↔ page % pageSize = 0 ∧ first ≤ page ∧ page < last := by
  simp only [pagesOf, List.mem_range', pageSize] at *
  constructor
  · rintro ⟨i,hi,rfl⟩
    omega
  · rintro ⟨h0,hle,hlt⟩
    exact ⟨(page-first)/4096, by omega, by omega⟩

theorem mem_unmapVme {page : Nat} (hpos : curr.start ≤ curr.finish) (hrange : start ≤ finish)
    (hs : start % pageSize = 0) (hf : finish % pageSize = 0) (hc : curr.Aligned) :
    page ∈ (unmapVme start finish curr).2 ↔ page % pageSize = 0 ∧
      (start ≤ page ∧ page < finish) ∧ curr.start ≤ page ∧ page < curr.finish := by
  obtain ⟨hout,h⟩ | ⟨first,last,shared,rfl,rfl,hlt,h⟩ := unmapVme_cases hpos hrange
  · rw [h]
    refine iff_of_false List.not_mem_nil fun hin => ?_
    omega
  · obtain ⟨hfirst,hlast⟩ := clamp_aligned hs hf hc
    rw [h, mem_pagesOf hfirst hlast]
    omega

/-! The loop of `munmap`. -/

theorem munmapFrom_cons : munmapFrom start finish (curr :: next) =
    ((unmapVme start finish curr).1 ++ (munmapFrom start finish next).1,
      (unmapVme start finish curr).2 ++ (munmapFrom start finish next).2) := rfl

theorem mem_munmapFrom_kept {vme : Vme ν} (hv : vme ∈ (munmapFrom start finish head).1) :
    ∃ curr ∈ head, vme ∈ (unmapVme start finish curr).1 := by
  induction head with
  | nil => cases hv
  | cons curr next ih =>
    cases List.mem_append.mp (munmapFrom_cons ▸ hv) with
    | inl hv => exact ⟨curr, List.mem_cons_self, hv⟩
    | inr hv =>
      obtain ⟨vme',hm,hv⟩ := ih hv
      exact ⟨vme', List.mem_cons_of_mem _ hm, hv⟩

theorem munmapFrom_along {lo limit : Nat} (h : Along Vme.start Vme.finish lo head limit)
    (hrange : start ≤ finish) :
    Along Vme.start Vme.finish lo (munmapFrom start finish head).1 limit := by
  induction head generalizing lo with
  | nil => exact h
  | cons curr next ih =>
    rw [munmapFrom_cons]
    exact (unmapVme_along h.1 h.2.1 hrange).append (ih h.2.2)

/-- The loop takes the range out of the set of mapped addresses, and out of nothing else. -/
theorem backing_munmapFrom {lo limit : Nat} (h : Along Vme.start Vme.finish lo head limit)
    (hlimit : limit < 2^64) (hrange : start ≤ finish) :
    backing (munmapFrom start finish head).1 va =
      if start ≤ va ∧ va < finish then none else backing head va := by
  induction head generalizing lo with
  | nil => split <;> rfl
  | cons curr next ih =>
    have hhi := h.2.2.le
    rw [munmapFrom_cons, backing_unmapVme h.2.1 (by omega) hrange, ih h.2.2, backing_cons]
    by_cases hin : start ≤ va ∧ va < finish
    · rw [if_pos hin, if_pos hin, if_neg (by omega)]
    · rw [if_neg hin, if_neg hin]
      by_cases hc : curr.start ≤ va ∧ va < curr.finish
      · rw [if_pos hc, if_pos ⟨hc.1, hc.2, hin⟩]
      · rw [if_neg hc, if_neg (by omega)]

theorem WellFormed.munmapFrom {base limit : Nat} (h : WellFormed base limit head)
    (hrange : start < finish) (hs : start % pageSize = 0) (hf : finish % pageSize = 0) :
    WellFormed base limit (Vmes.munmapFrom start finish head).1 := by
  refine ⟨laid_iff.mpr ⟨munmapFrom_along h.laid.along hrange.le, fun vme hv => ?_⟩, fun vme hv => ?_⟩
  · obtain ⟨curr,hm,hv⟩ := mem_munmapFrom_kept hv
    have hpos := h.laid.pos hm
    obtain rfl | ⟨hne,-⟩ := mem_unmapVme_kept hpos.le hrange.le hv
    · exact hpos
    · exact hne
  · obtain ⟨curr,hm,hv⟩ := mem_munmapFrom_kept hv
    exact unmapVme_aligned (h.laid.pos hm).le hrange.le hs hf (h.aligned curr hm) vme hv

theorem mem_munmapFrom {base limit page : Nat} (h : WellFormed base limit head)
    (hrange : start < finish) (hs : start % pageSize = 0) (hf : finish % pageSize = 0) :
    page ∈ (Vmes.munmapFrom start finish head).2 ↔
      page % pageSize = 0 ∧ (start ≤ page ∧ page < finish) ∧ Mapped head page := by
  obtain ⟨hlaid,haligned⟩ := h
  induction head generalizing base with
  | nil => simp [Vmes.munmapFrom, Mapped, findVme, spanAt]
  | cons curr next ih =>
    rw [munmapFrom_cons, List.mem_append, mem_unmapVme hlaid.2.1.le hrange.le hs hf
      (haligned curr List.mem_cons_self), ih hlaid.2.2
      (fun vme hm => haligned vme (List.mem_cons_of_mem _ hm)), mapped_cons]
    rw [← and_or_left, ← and_or_left]

/-! The loop on a list whose regions may overlap or be empty. -/

theorem unmapVme_covers (hrange : start ≤ finish) (hs : start % pageSize = 0)
    (hf : finish % pageSize = 0) (hc : curr.Aligned) (hva : va % pageSize = 0)
    (hin : curr.start ≤ va ∧ va < curr.finish) :
    Mapped (unmapVme start finish curr).1 va ∨ va ∈ (unmapVme start finish curr).2 := by
  obtain ⟨-,h⟩ | ⟨first,last,shared,hfirst,hlast,-,h⟩ := unmapVme_cases (hin.1.trans hin.2.le) hrange
  · rw [h]
    exact Or.inl (mapped_iff.mpr ⟨curr, List.mem_singleton_self curr, hin⟩)
  obtain ⟨hfa,hla⟩ := clamp_aligned hs hf hc
  rw [← hfirst] at hfa
  rw [← hlast] at hla
  rw [h]
  by_cases hb : va < first
  · refine Or.inl (mapped_append.mpr (Or.inl ?_))
    rw [before, if_pos (by omega)]
    exact mapped_iff.mpr ⟨_, List.mem_singleton_self _, hin.1, hb⟩
  by_cases ha : last ≤ va
  · refine Or.inl (mapped_append.mpr (Or.inr ?_))
    rw [after, if_pos (by omega)]
    exact mapped_iff.mpr ⟨_, List.mem_singleton_self _, ha, hin.2⟩
  · exact Or.inr ((mem_pagesOf hfa hla).mpr ⟨hva, by omega, by omega⟩)

/-- The regions are page-aligned and do not end before they start. -/
def Paged (head : List (Vme ν)) : Prop := ∀ vme ∈ head, vme.Aligned ∧ vme.start ≤ vme.finish

theorem paged_cons : Paged (curr :: next) ↔ (curr.Aligned ∧ curr.start ≤ curr.finish) ∧ Paged next :=
  List.forall_mem_cons

section Paged
variable (hrange : start ≤ finish) (hs : start % pageSize = 0) (hf : finish % pageSize = 0)
include hrange hs hf

theorem Paged.munmapFrom (h : Paged head) : Paged (Vmes.munmapFrom start finish head).1 := by
  intro vme hv
  obtain ⟨curr,hm,hv⟩ := mem_munmapFrom_kept hv
  obtain ⟨hc,hpos⟩ := h curr hm
  exact ⟨unmapVme_aligned hpos hrange hs hf hc vme hv,
    ((unmapVme_along (Nat.le_refl _) hpos hrange).bounds hv).2.1⟩

theorem Paged.munmapFrom_covers (h : Paged head) (hva : va % pageSize = 0)
    (hm : Mapped head va) : Mapped (Vmes.munmapFrom start finish head).1 va ∨
      va ∈ (Vmes.munmapFrom start finish head).2 := by
  induction head with
  | nil => exact Or.inl hm
  | cons curr next ih =>
    obtain ⟨⟨hc,-⟩,hnext⟩ := paged_cons.mp h
    rw [munmapFrom_cons, mapped_append, List.mem_append]
    obtain hin | hm := mapped_cons.mp hm
    · exact (unmapVme_covers hrange hs hf hc hva hin).imp Or.inl Or.inl
    · exact (ih hnext hm).imp Or.inr Or.inr

theorem Paged.mapped_of_munmapFrom (h : Paged head)
    (hm : va ∈ (Vmes.munmapFrom start finish head).2) : Mapped head va := by
  induction head with
  | nil => cases hm
  | cons curr next ih =>
    obtain ⟨⟨hc,hpos⟩,hnext⟩ := paged_cons.mp h
    rw [mapped_cons]
    obtain hm | hm := List.mem_append.mp (munmapFrom_cons ▸ hm)
    · exact Or.inl ((mem_unmapVme hpos hrange hs hf hc).mp hm).2.2
    · exact Or.inr (ih hnext hm)

end Paged

/-! `insert_vme`. -/

/-- There is room for `length` bytes at `va`. -/
def Fits (base limit length : Nat) (head : List (Vme ν)) (va : Nat) : Prop :=
  base ≤ va ∧ va+length ≤ limit ∧ ∀ vme ∈ head, va+length ≤ vme.start ∨ vme.finish ≤ va

section Insert
variable {limit length offset candidate : Nat} {file : Option ν} {shared : Bool}
  {vmes : List (Vme ν)}

theorem fitsInRange_iff (hc : candidate < 2^64) (hl : limit < 2^64) (hpos : 0 < length) :
    fitsInRange candidate length limit = true ↔ candidate+length ≤ limit := by
  simp only [fitsInRange, Bool.and_eq_true, decide_eq_true_eq]
  rw [sub64]
  omega

theorem place_some {next : List (Vme ν)} (hl : limit < 2^64)
    (hs : insertFrom.place limit length file offset shared candidate next = some (va, vmes)) :
    va = candidate ∧ va+length ≤ limit ∧
      vmes = ⟨va, va+length, file, offset, shared⟩ :: next := by
  unfold insertFrom.place at hs
  split at hs
  · rename_i hf
    simp only [fitsInRange, Bool.and_eq_true, decide_eq_true_eq] at hf
    obtain ⟨hlt,hle⟩ := hf
    rw [sub64] at hle
    rw [wrap, Nat.mod_eq_of_lt (by omega)] at hs
    cases hs
    exact ⟨rfl, by omega, rfl⟩
  · cases hs

theorem insertFrom_some {hi : Nat} (h : Along Vme.start Vme.finish candidate head hi)
    (hhi : hi < 2^64) (hlimit : limit ≤ hi)
    (hs : insertFrom limit length file offset shared candidate head = some (va, vmes)) :
    va+length ≤ limit ∧ ∃ pre post, head = pre ++ post ∧
      vmes = pre ++ ⟨va, va+length, file, offset, shared⟩ :: post ∧
      Along Vme.start Vme.finish candidate pre va ∧
      Along Vme.start Vme.finish (va+length) post hi ∧
      (va = candidate ∨ ∃ vme ∈ pre, va = vme.finish) := by
  induction head generalizing candidate vmes with
  | nil =>
    obtain ⟨rfl,hfit,rfl⟩ := place_some (by omega) hs
    exact ⟨hfit, [], [], rfl, rfl, Nat.le_refl va, hfit.trans hlimit, Or.inl rfl⟩
  | cons next rest ih =>
    obtain ⟨hc,hn,hrest⟩ := h
    have hle := hrest.le
    unfold insertFrom at hs
    split at hs
    · rename_i hgap
      obtain ⟨rfl,hfit,rfl⟩ := place_some (by omega) hs
      have hroom := hgap.2
      rw [sub64] at hroom
      exact ⟨hfit, [], next :: rest, rfl, rfl, Nat.le_refl va, ⟨by omega, hn, hrest⟩, Or.inl rfl⟩
    · obtain ⟨⟨va',vmes'⟩,hs',heq⟩ := Option.map_eq_some_iff.mp hs
      cases heq
      obtain ⟨hfit,pre,post,rfl,rfl,hpre,hpost,hva⟩ := ih hrest hs'
      refine ⟨hfit, next :: pre, post, rfl, rfl, ⟨hc, hn, hpre⟩, hpost, Or.inr ?_⟩
      cases hva with
      | inl heq => exact ⟨next, List.mem_cons_self, heq⟩
      | inr hex =>
        obtain ⟨vme,hv,heq⟩ := hex
        exact ⟨vme, List.mem_cons_of_mem _ hv, heq⟩

theorem insertFrom_lowest {hi b : Nat} (h : Along Vme.start Vme.finish candidate head hi)
    (hhi : hi < 2^64) (hlimit : limit ≤ hi) (hpos : 0 < length)
    (hb : Fits candidate limit length head b) :
    ∃ va vmes, insertFrom limit length file offset shared candidate head = some (va, vmes) ∧
      va ≤ b := by
  have hplace {candidate : Nat} {next : List (Vme ν)} (hc : candidate ≤ b) :
      insertFrom.place limit length file offset shared candidate next =
        some (candidate, ⟨candidate, wrap (candidate+length), file, offset, shared⟩ :: next) := by
    have hfit := hb.2.1
    exact if_pos ((fitsInRange_iff (by omega) (by omega) hpos).mpr (by omega))
  induction head generalizing candidate with
  | nil => exact ⟨_, _, hplace hb.1, hb.1⟩
  | cons next rest ih =>
    obtain ⟨hc,hn,hrest⟩ := h
    obtain ⟨hle,hfit,hroom⟩ := hb
    have hfin := hrest.le
    unfold insertFrom
    split
    · exact ⟨_, _, hplace hle, hle⟩
    · rename_i hgap
      have hnext : next.finish ≤ b := by
        refine (hroom next List.mem_cons_self).resolve_left fun hlow => hgap ⟨hc, ?_⟩
        rw [sub64]
        omega
      obtain ⟨va,vmes,hs,hva⟩ := ih hrest
        ⟨hnext, hfit, fun vme hv => hroom vme (List.mem_cons_of_mem _ hv)⟩
      rw [hs]
      exact ⟨_, _, rfl, hva⟩

theorem backing_insert {pre post : List (Vme ν)} (hpre : ∀ vme ∈ pre, vme.finish ≤ curr.start) :
    backing (pre ++ curr :: post) va =
      if curr.start ≤ va ∧ va < curr.finish then
        some (curr.node, wrap (curr.offset+(va-curr.start)))
      else backing (pre ++ post) va := by
  induction pre with
  | nil => exact backing_cons
  | cons vme pre ih =>
    have hbefore := hpre vme List.mem_cons_self
    rw [List.cons_append, List.cons_append, backing_cons, backing_cons,
      ih fun vme hv => hpre vme (List.mem_cons_of_mem _ hv)]
    by_cases hin : curr.start ≤ va ∧ va < curr.finish
    · rw [if_pos hin, if_pos hin, if_neg (by omega)]
    · rw [if_neg hin, if_neg hin]

theorem WellFormed.insert {base hi : Nat} (h : WellFormed base hi head) (hhi : hi < 2^64)
    (hlimit : limit ≤ hi) (hpos : 0 < length) (hbase : base % pageSize = 0)
    (hlen : length % pageSize = 0)
    (hs : insertVme head base limit length file offset shared = some (va, vmes)) :
    WellFormed base hi vmes ∧ Fits base limit length head va ∧
      (∀ b, Fits base limit length head b → va ≤ b) ∧
      ∀ a, backing vmes a = if va ≤ a ∧ a < va+length then
        some (file, wrap (offset+(a-va))) else backing head a := by
  have hlow (b : Nat) (hb : Fits base limit length head b) : va ≤ b := by
    obtain ⟨va',vmes',hs',hle⟩ := insertFrom_lowest h.laid.along hhi hlimit hpos hb
    cases hs'.symm.trans hs
    exact hle
  obtain ⟨hfit,pre,post,rfl,rfl,hpre,hpost,hend⟩ := insertFrom_some h.laid.along hhi hlimit hs
  have hbefore : ∀ vme ∈ pre, vme.finish ≤ va := fun vme hv => (hpre.bounds hv).2.2
  have hva : va % pageSize = 0 := by
    obtain rfl | ⟨vme,hv,rfl⟩ := hend
    · exact hbase
    · exact (h.aligned vme (List.mem_append_left _ hv)).2
  refine ⟨⟨laid_iff.mpr ⟨hpre.append ⟨Nat.le_refl va, Nat.le_add_right .., hpost⟩, ?_⟩, ?_⟩,
    ⟨hpre.le, hfit, ?_⟩, hlow, fun a => backing_insert hbefore⟩
  · intro vme hv
    rcases List.mem_append.mp hv with hv | hv
    · exact h.laid.pos (List.mem_append_left _ hv)
    · cases List.mem_cons.mp hv with
      | inl heq =>
        rw [heq]
        exact Nat.lt_add_of_pos_right hpos
      | inr hv => exact h.laid.pos (List.mem_append_right _ hv)
  · intro vme hv
    rcases List.mem_append.mp hv with hv | hv
    · exact h.aligned vme (List.mem_append_left _ hv)
    · cases List.mem_cons.mp hv with
      | inl heq =>
        rw [heq]
        simp only [Vme.Aligned, pageSize] at *
        omega
      | inr hv => exact h.aligned vme (List.mem_append_right _ hv)
  · intro vme hv
    cases List.mem_append.mp hv with
    | inl hv => exact Or.inr (hbefore vme hv)
    | inr hv => exact Or.inl (hpost.bounds hv).1

theorem Paged.insertFrom (h : Paged head) (hl : limit < 2^64) (hc : candidate % pageSize = 0)
    (hlen : length % pageSize = 0)
    (hs : Vmes.insertFrom limit length file offset shared candidate head = some (va, vmes)) :
    Paged vmes ∧ ∀ vme ∈ head, vme ∈ vmes := by
  have hplace {candidate : Nat} {next : List (Vme ν)} {va : Nat} {vmes : List (Vme ν)}
      (hc : candidate % pageSize = 0) (hn : Paged next)
      (hs : insertFrom.place limit length file offset shared candidate next = some (va, vmes)) :
      Paged vmes ∧ ∀ vme ∈ next, vme ∈ vmes := by
    obtain ⟨rfl,-,rfl⟩ := place_some hl hs
    refine ⟨paged_cons.mpr ⟨?_, hn⟩, fun vme hv => List.mem_cons_of_mem _ hv⟩
    simp only [Vme.Aligned, pageSize] at hc hlen ⊢
    omega
  induction head generalizing candidate vmes with
  | nil => exact hplace hc h hs
  | cons next rest ih =>
    obtain ⟨hnext,hrest⟩ := paged_cons.mp h
    unfold Vmes.insertFrom at hs
    split at hs
    · exact hplace hc h hs
    · obtain ⟨⟨va',vmes'⟩,hs',heq⟩ := Option.map_eq_some_iff.mp hs
      cases heq
      obtain ⟨hp,hkept⟩ := ih hrest hnext.1.2 hs'
      refine ⟨paged_cons.mpr ⟨hnext, hp⟩, fun vme hv => ?_⟩
      obtain rfl | hv := List.mem_cons.mp hv
      · exact List.mem_cons_self
      · exact List.mem_cons_of_mem _ (hkept vme hv)

end Insert

/-! Lists without gaps, from which nothing is unmapped. -/

/-- The regions follow each other from `lo` on. -/
def Packed (lo : Nat) : List (Vme ν) → Prop
  | [] => True
  | vme :: next => vme.start = lo ∧ lo ≤ vme.finish ∧ Packed vme.finish next

/-- Where the last region ends. -/
def endOf (lo : Nat) : List (Vme ν) → Nat
  | [] => lo
  | vme :: next => endOf vme.finish next

theorem Packed.le {lo : Nat} (h : Packed lo head) : lo ≤ endOf lo head := by
  induction head generalizing lo with
  | nil => exact Nat.le_refl lo
  | cons vme next ih => exact h.2.1.trans (ih h.2.2)

theorem Packed.mapped_iff {lo : Nat} (h : Packed lo head) :
    Mapped head va ↔ lo ≤ va ∧ va < endOf lo head := by
  induction head generalizing lo with
  | nil =>
    simp only [Vmes.mapped_iff, List.not_mem_nil, false_and, exists_false, endOf, false_iff]
    omega
  | cons vme next ih =>
    obtain ⟨rfl,hle,hnext⟩ := h
    have hend := hnext.le
    rw [mapped_cons, ih hnext, endOf]
    omega

theorem Packed.insert {lo limit length offset : Nat} {file : Option ν} {shared : Bool}
    {vmes : List (Vme ν)} (h : Packed lo head) (hl : limit < 2^64)
    (hs : insertFrom limit length file offset shared lo head = some (va, vmes)) :
    Packed lo vmes ∧ endOf lo vmes = endOf lo head+length ∧ va+length ≤ limit ∧ lo ≤ va ∧
      (0 < length → va = endOf lo head) ∧ (va = lo ∨ ∃ vme ∈ head, va = vme.finish) ∧
      (∀ vme ∈ vmes, vme ∈ head ∨ vme = ⟨va, va+length, file, offset, shared⟩) ∧
      ∀ a vme, findVme head a = some vme → findVme vmes a = some vme := by
  induction head generalizing lo vmes with
  | nil =>
    obtain ⟨rfl,hfit,rfl⟩ := place_some hl hs
    exact ⟨⟨rfl, Nat.le_add_right .., trivial⟩, rfl, hfit, Nat.le_refl va, fun _ => rfl, Or.inl rfl,
      fun vme hv => Or.inr (List.mem_singleton.mp hv), nofun⟩
  | cons next rest ih =>
    obtain ⟨hstart,hle,hrest⟩ := h
    unfold insertFrom at hs
    split at hs
    · rename_i hgap
      have hzero : length = 0 := by
        have hroom := hgap.2
        rw [hstart, sub64] at hroom
        omega
      subst hzero
      obtain ⟨rfl,hfit,rfl⟩ := place_some hl hs
      refine ⟨⟨rfl, Nat.le_refl va, hstart, hle, hrest⟩, rfl, hfit, Nat.le_refl va, nofun, Or.inl rfl,
        fun vme hv => (List.mem_cons.mp hv).symm, fun a vme hf => ?_⟩
      rw [findVme, spanAt_cons, if_neg (by dsimp only; omega)]
      exact hf
    · obtain ⟨⟨va',vmes'⟩,hs',heq⟩ := Option.map_eq_some_iff.mp hs
      cases heq
      obtain ⟨hp,hend,hfit,hlo,hva,hat,hmem,hkept⟩ := ih hrest hs'
      refine ⟨⟨hstart, hle, hp⟩, hend, hfit, hle.trans hlo, hva, Or.inr ?_, fun vme hv => ?_,
        fun a vme hf => ?_⟩
      · obtain rfl | ⟨vme,hv,heq⟩ := hat
        · exact ⟨next, List.mem_cons_self, rfl⟩
        · exact ⟨vme, List.mem_cons_of_mem _ hv, heq⟩
      · obtain rfl | hv := List.mem_cons.mp hv
        · exact Or.inl List.mem_cons_self
        · exact (hmem vme hv).imp_left (List.mem_cons_of_mem _)
      rw [findVme, spanAt_cons] at hf ⊢
      split
      · rename_i hin
        rwa [if_pos hin] at hf
      · rename_i hin
        rw [if_neg hin] at hf
        exact hkept a vme hf

/-! The calls on such lists. -/

theorem pageAlignUp_mod {length : Nat} : pageAlignUp length % pageSize = 0 := Nat.mul_mod_left ..

theorem mmap_cases (hhdmOffset : Nat) (s : Mappings ν) (length : Nat) (flags : Int32)
    (file : Option ν) (offset : Nat) :
    s.mmap hhdmOffset length flags file offset = (none, s) ∨
      length ≠ 0 ∧ offset % pageSize = 0 ∧ ∃ va vmes,
        (flags &&& 1 ≠ 0 ∧ insertVme s.sharedVmes (sharedBase hhdmOffset) sharedLimit
            (pageAlignUp length) file offset true = some (va, vmes) ∧
          s.mmap hhdmOffset length flags file offset =
            (some va, { s with sharedVmes := vmes }) ∨
        flags &&& 1 = 0 ∧ insertVme s.vmes privateBase hhdmOffset (pageAlignUp length) file offset
            false = some (va, vmes) ∧
          s.mmap hhdmOffset length flags file offset = (some va, { s with vmes := vmes })) := by
  unfold Mappings.mmap
  split
  · exact Or.inl rfl
  rename_i hzero
  split
  · exact Or.inl rfl
  rename_i hoffset
  dsimp only
  split
  · exact Or.inl rfl
  split
  · rename_i hshared
    split
    · rename_i va vmes hs
      exact Or.inr ⟨hzero, not_not.mp hoffset, va, vmes, Or.inl ⟨hshared, hs, rfl⟩⟩
    · exact Or.inl rfl
  · rename_i hprivate
    split
    · rename_i va vmes hs
      exact Or.inr ⟨hzero, not_not.mp hoffset, va, vmes, Or.inr ⟨not_not.mp hprivate, hs, rfl⟩⟩
    · exact Or.inl rfl

theorem munmap_cases (hhdmOffset : Nat) (s : Mappings ν) (addr length : Nat) :
    s.munmap hhdmOffset addr length = (-1, s, []) ∨
      length ≠ 0 ∧ addr % pageSize = 0 ∧ wrap (addr+pageAlignUp length) % pageSize = 0 ∧
      addr ≤ wrap (addr+pageAlignUp length) ∧ s.munmap hhdmOffset addr length =
        (0, { s with vmes := (munmapFrom addr (wrap (addr+pageAlignUp length)) s.vmes).1 },
          (munmapFrom addr (wrap (addr+pageAlignUp length)) s.vmes).2) := by
  unfold Mappings.munmap
  split
  · exact Or.inl rfl
  rename_i haligned
  split
  · exact Or.inl rfl
  rename_i hzero
  dsimp only
  split
  · exact Or.inl rfl
  rename_i hover
  split
  · exact Or.inl rfl
  split
  · exact Or.inl rfl
  have hstart : addr % pageSize = 0 := not_not.mp haligned
  have hfinish : wrap (addr+pageAlignUp length) % pageSize = 0 := by
    have hlen : pageAlignUp length % pageSize = 0 := pageAlignUp_mod
    simp only [wrap, pageSize] at *
    omega
  exact Or.inr ⟨hzero, hstart, hfinish, Nat.le_of_not_lt hover, rfl⟩

section Paged
variable {s : Mappings ν} (hhdmOffset : UInt64)

theorem Paged.mmap (h : Paged s.vmes) (length : Nat) (flags : Int32) (file : Option ν)
    (offset : Nat) :
    Paged (s.mmap hhdmOffset.toNat length flags file offset).2.vmes ∧
      ∀ va, Mapped s.vmes va →
        Mapped (s.mmap hhdmOffset.toNat length flags file offset).2.vmes va := by
  obtain heq | ⟨-,-,va,vmes,⟨-,-,heq⟩ | ⟨-,hs,heq⟩⟩ :=
    mmap_cases hhdmOffset.toNat s length flags file offset
  · rw [heq]
    exact ⟨h, fun _ hm => hm⟩
  · rw [heq]
    exact ⟨h, fun _ hm => hm⟩
  · obtain ⟨hp,hkept⟩ := h.insertFrom hhdmOffset.toNat_lt (by decide) pageAlignUp_mod hs
    rw [heq]
    refine ⟨hp, fun va hm => ?_⟩
    obtain ⟨vme,hv,hin⟩ := mapped_iff.mp hm
    exact mapped_iff.mpr ⟨vme, hkept vme hv, hin⟩

theorem Paged.munmap (h : Paged s.vmes) (addr length : Nat) :
    Paged (s.munmap hhdmOffset.toNat addr length).2.1.vmes ∧
      (∀ va, va % pageSize = 0 → Mapped s.vmes va →
        Mapped (s.munmap hhdmOffset.toNat addr length).2.1.vmes va ∨
          va ∈ (s.munmap hhdmOffset.toNat addr length).2.2) ∧
      ∀ va ∈ (s.munmap hhdmOffset.toNat addr length).2.2, Mapped s.vmes va := by
  obtain heq | ⟨-,hstart,hfinish,hrange,heq⟩ := munmap_cases hhdmOffset.toNat s addr length
  · rw [heq]
    exact ⟨h, fun _ _ hm => Or.inl hm, fun _ hv => by cases hv⟩
  · rw [heq]
    exact ⟨h.munmapFrom hrange hstart hfinish,
      fun va hva hm => h.munmapFrom_covers hrange hstart hfinish hva hm,
      fun va hm => h.mapped_of_munmapFrom hrange hstart hfinish hm⟩

end Paged

/-! Runs of the calls. -/

inductive Call (ν : Type*) where
  | mmap (length : UInt64) (flags : Int32) (file : Option ν) (offset : UInt64)
  | munmap (addr length : UInt64)

def RoundsUp (length : UInt64) : Prop := length.toNat+4095 < 2^64

instance (length : UInt64) : Decidable (RoundsUp length) := inferInstanceAs (Decidable (_ < _))

def Call.RoundsUp : Call ν → Prop
  | .mmap length .. | .munmap _ length => Vmes.RoundsUp length

def Mappings.call (hhdmOffset : Nat) (s : Mappings ν) : Call ν → Mappings ν
  | .mmap length flags file offset => (s.mmap hhdmOffset length.toNat flags file offset.toNat).2
  | .munmap addr length => (s.munmap hhdmOffset addr.toNat length.toNat).2.1

def mappingMachine (ν : Type*) (hhdmOffset : UInt64) : Machine (Mappings ν) (Call ν) where
  Init s := s = ⟨[], []⟩
  step s call := some (s.call hhdmOffset.toNat call)

theorem pageAlignUp_spec {length : Nat} (h : length+4095 < 2^64) :
    pageAlignUp length % pageSize = 0 ∧ length ≤ pageAlignUp length ∧
      pageAlignUp length < length+4096 ∧ pageAlignUp length < 2^64 := by
  simp only [pageAlignUp, wrap, pageSize]
  omega

section Runs
variable {s : Mappings ν} {hhdmOffset : UInt64} {length : UInt64} {file : Option ν}
  {offset : UInt64} {flags : Int32}

/-- No region is above the direct map's base, also where that is below the first page. -/
def top (hhdmOffset : UInt64) : Nat := max privateBase hhdmOffset.toNat

theorem top_lt (hhdmOffset : UInt64) : top hhdmOffset < 2^64 := by
  have hh := hhdmOffset.toNat_lt
  simp only [top, privateBase]
  omega

theorem mmap_spec (file : Option ν) (offset : UInt64)
    (h : WellFormed privateBase (top hhdmOffset) s.vmes) (hl : RoundsUp length)
    (hprivate : flags &&& 1 = 0) :
    s.mmap hhdmOffset.toNat length.toNat flags file offset.toNat = (none, s) ∨
    ∃ va vmes, s.mmap hhdmOffset.toNat length.toNat flags file offset.toNat =
        (some va, { s with vmes := vmes }) ∧
      WellFormed privateBase (top hhdmOffset) vmes ∧
      Fits privateBase hhdmOffset.toNat (pageAlignUp length.toNat) s.vmes va ∧
      (∀ b, Fits privateBase hhdmOffset.toNat (pageAlignUp length.toNat) s.vmes b → va ≤ b) ∧
      ∀ a, backing vmes a = if va ≤ a ∧ a < va+pageAlignUp length.toNat then
        some (file, wrap (offset.toNat+(a-va))) else backing s.vmes a := by
  have hspec := pageAlignUp_spec hl
  obtain heq | ⟨hzero,-,va,vmes,⟨hshared,-⟩ | ⟨-,hs,heq⟩⟩ :=
    mmap_cases hhdmOffset.toNat s length.toNat flags file offset.toNat
  · exact Or.inl heq
  · exact absurd hprivate hshared
  · exact Or.inr ⟨va, vmes, heq, h.insert (top_lt hhdmOffset) (Nat.le_max_right _ _) (by omega)
      (by decide) hspec.1 hs⟩

theorem munmap_spec (addr : UInt64) (h : WellFormed privateBase (top hhdmOffset) s.vmes)
    (hl : RoundsUp length) :
    s.munmap hhdmOffset.toNat addr.toNat length.toNat = (-1, s, []) ∨
    ∃ vmes pages, s.munmap hhdmOffset.toNat addr.toNat length.toNat =
        (0, { s with vmes := vmes }, pages) ∧
      WellFormed privateBase (top hhdmOffset) vmes ∧
      (∀ a, backing vmes a =
        if addr.toNat ≤ a ∧ a < addr.toNat+pageAlignUp length.toNat then none
        else backing s.vmes a) ∧
      ∀ page, page ∈ pages ↔ page % pageSize = 0 ∧
        (addr.toNat ≤ page ∧ page < addr.toNat+pageAlignUp length.toNat) ∧
          Mapped s.vmes page := by
  have hspec := pageAlignUp_spec hl
  have hh := hhdmOffset.toNat_lt
  have ha := addr.toNat_lt
  obtain heq | ⟨hzero,hstart,hfinish,hrange,heq⟩ :=
    munmap_cases hhdmOffset.toNat s addr.toNat length.toNat
  · exact Or.inl heq
  have hfin : wrap (addr.toNat+pageAlignUp length.toNat) =
      addr.toNat+pageAlignUp length.toNat := by
    rw [wrap] at *
    omega
  rw [hfin] at hfinish hrange heq
  have hlt : addr.toNat < addr.toNat+pageAlignUp length.toNat := by omega
  exact Or.inr ⟨_, _, heq, h.munmapFrom hlt hstart hfinish,
    fun a => backing_munmapFrom h.laid.along (top_lt hhdmOffset) hrange,
    fun page => mem_munmapFrom h hlt hstart hfinish⟩

theorem mmap_shared {s : Mappings ν} (hshared : flags &&& 1 ≠ 0) :
    (s.mmap hhdmOffset.toNat length.toNat flags file offset.toNat).2.vmes = s.vmes := by
  obtain heq | ⟨-,-,va,vmes,⟨-,-,heq⟩ | ⟨hprivate,-⟩⟩ :=
    mmap_cases hhdmOffset.toNat s length.toNat flags file offset.toNat
  · rw [heq]
  · rw [heq]
  · exact absurd hprivate hshared

theorem wellFormed_invariant :
    ((mappingMachine ν hhdmOffset).under fun _ call => call.RoundsUp).Invariant fun s =>
      WellFormed privateBase (top hhdmOffset) s.vmes where
  init := by
    rintro s rfl
    refine ⟨?_, fun vme hv => by cases hv⟩
    change privateBase ≤ max _ _
    omega
  step := by
    rintro s t h ⟨call,hc,hs⟩
    cases hs
    cases call with
    | mmap length flags file offset =>
      change WellFormed _ _ (s.mmap _ _ _ _ _).2.vmes
      by_cases hp : flags &&& 1 = 0
      · obtain heq | ⟨va,vmes,heq,hw,-⟩ := mmap_spec file offset h hc hp
        · rw [heq]
          exact h
        · rw [heq]
          exact hw
      · rw [mmap_shared hp]
        exact h
    | munmap addr length =>
      change WellFormed _ _ (s.munmap _ _ _).2.1.vmes
      obtain heq | ⟨vmes,pages,heq,hw,-⟩ := munmap_spec addr h hc
      · rw [heq]
        exact h
      · rw [heq]
        exact hw

end Runs

/-- In every run of calls the list is sorted and its regions are not empty, page-aligned,
apart and in the private range. From there a private `mmap` takes the lowest room, a
`munmap` that returns 0 takes out its range, and both change no other mapping and, where
they fail, nothing. -/
theorem mapping_list (ν : Type*) (hhdmOffset : UInt64) (s : Mappings ν)
    (hr : ((mappingMachine ν hhdmOffset).under fun _ call => call.RoundsUp).Reachable s) :
    (s.vmes.Pairwise (fun vme next => vme.finish ≤ next.start) ∧
      ∀ vme ∈ s.vmes, vme.start < vme.finish ∧ vme.Aligned ∧
        privateBase ≤ vme.start ∧ vme.finish ≤ hhdmOffset.toNat) ∧
    (∀ (length : UInt64) (flags : Int32) (file : Option ν) (offset : UInt64),
      RoundsUp length → flags &&& 1 = 0 →
      s.mmap hhdmOffset.toNat length.toNat flags file offset.toNat = (none, s) ∨
      ∃ va vmes, s.mmap hhdmOffset.toNat length.toNat flags file offset.toNat =
          (some va, { s with vmes := vmes }) ∧
        Fits privateBase hhdmOffset.toNat (pageAlignUp length.toNat) s.vmes va ∧
        (∀ b, Fits privateBase hhdmOffset.toNat (pageAlignUp length.toNat) s.vmes b → va ≤ b) ∧
        ∀ a, backing vmes a = if va ≤ a ∧ a < va+pageAlignUp length.toNat then
          some (file, wrap (offset.toNat+(a-va))) else backing s.vmes a) ∧
    (∀ addr length : UInt64, RoundsUp length →
      s.munmap hhdmOffset.toNat addr.toNat length.toNat = (-1, s, []) ∨
      ∃ vmes pages, s.munmap hhdmOffset.toNat addr.toNat length.toNat =
          (0, { s with vmes := vmes }, pages) ∧
        (∀ a, backing vmes a =
          if addr.toNat ≤ a ∧ a < addr.toNat+pageAlignUp length.toNat then none
          else backing s.vmes a) ∧
        ∀ page, page ∈ pages ↔ page % pageSize = 0 ∧
          (addr.toNat ≤ page ∧ page < addr.toNat+pageAlignUp length.toNat) ∧
            Mapped s.vmes page) := by
  have h := wellFormed_invariant.reachable hr
  refine ⟨⟨h.laid.along.pairwise, fun vme hv => ?_⟩, fun length flags file offset hl hp => ?_,
    fun addr length hl => ?_⟩
  · obtain ⟨hlo,-,hhi⟩ := h.laid.along.bounds hv
    have hpos := h.laid.pos hv
    rw [top] at hhi
    exact ⟨hpos, h.aligned vme hv, hlo, by omega⟩
  · obtain heq | ⟨va,vmes,heq,-,hrest⟩ := mmap_spec file offset h hl hp
    · exact Or.inl heq
    · exact Or.inr ⟨va, vmes, heq, hrest⟩
  · obtain heq | ⟨vmes,pages,heq,-,hrest⟩ := munmap_spec addr h hl
    · exact Or.inl heq
    · exact Or.inr ⟨vmes, pages, heq, hrest⟩

/-- A hole in a file mapping, and an anonymous mapping that takes its first page. -/
def holeCalls : List (Call String) :=
  [.mmap 0x5000 0 (some "a") 0x2000, .munmap 0x2000 0x1FFF, .mmap 1 2 none 0]

def holeState : Mappings String :=
  (mappingMachine String 0xFFFF800000000000).run ⟨[], []⟩ holeCalls

/-- A `munmap` over a gap, the whole of one region and the front of another. -/
theorem mapping_list_hole :
    holeState.vmes.map (fun vme => (vme.start, vme.finish, vme.offset)) =
      [(0x1000, 0x2000, 0x2000), (0x2000, 0x3000, 0), (0x4000, 0x6000, 0x5000)] ∧
    holeState.vmes.Pairwise (fun vme next => vme.finish ≤ next.start) ∧
    ∀ a, backing (holeState.munmap 0xFFFF800000000000 0x2000 0x2001).2.1.vmes a =
      if 0x2000 ≤ a ∧ a < 0x5000 then none else backing holeState.vmes a := by
  have hr : ((mappingMachine String 0xFFFF800000000000).under
      fun _ call => call.RoundsUp).Reachable holeState := by
    refine Machine.reachable_run (.init rfl) ⟨?_, ?_, ?_, trivial⟩
    · change RoundsUp 0x5000
      decide
    · change RoundsUp 0x1FFF
      decide
    · change RoundsUp 1
      decide
  obtain ⟨⟨hsorted,-⟩,-,hunmap⟩ := mapping_list String 0xFFFF800000000000 holeState hr
  refine ⟨by decide +kernel, hsorted, ?_⟩
  obtain hfail | ⟨vmes,pages,heq,hback,-⟩ := hunmap 0x2000 0x2001 (by decide)
  · have hret : (holeState.munmap 0xFFFF800000000000 0x2000 0x2001).1 = 0 := by decide +kernel
    exact absurd ((congrArg Prod.fst hfail).symm.trans hret) (by decide)
  · have hlist : (holeState.munmap 0xFFFF800000000000 0x2000 0x2001).2.1.vmes = vmes :=
      congrArg (fun r => r.2.1.vmes) heq
    rw [hlist]
    exact hback

end NetKernel.Vmes
