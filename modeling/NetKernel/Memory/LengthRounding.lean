import NetKernel.Memory.Vmes

/-! Lengths that round up to no pages at all, and what `mmap` and `munmap` make of them. -/
namespace NetKernel.Vmes
open Runs Spans
open Heaps (wrap sub64)

variable {ν : Type*}

/-! Where `mmap` looks for room. -/

def Mappings.listFor (s : Mappings ν) (flags : Int32) : List (Vme ν) :=
  if flags &&& 1 ≠ 0 then s.sharedVmes else s.vmes

def Mappings.setFor (s : Mappings ν) (flags : Int32) (vmes : List (Vme ν)) : Mappings ν :=
  if flags &&& 1 ≠ 0 then { s with sharedVmes := vmes } else { s with vmes := vmes }

def baseFor (hhdmOffset : Nat) (flags : Int32) : Nat :=
  if flags &&& 1 ≠ 0 then sharedBase hhdmOffset else privateBase

def limitFor (hhdmOffset : Nat) (flags : Int32) : Nat :=
  if flags &&& 1 ≠ 0 then sharedLimit else hhdmOffset

/-- The arguments beside the length are refused, or no address is below the limit. -/
def MmapRefused (hhdmOffset : Nat) (flags : Int32) (file : Option ν) (offset : Nat) : Prop :=
  offset % pageSize ≠ 0 ∨ decide (flags &&& 2 ≠ 0) ≠ file.isNone ∨
    limitFor hhdmOffset flags ≤ baseFor hhdmOffset flags

def MunmapRefused (hhdmOffset addr : Nat) : Prop :=
  addr % pageSize ≠ 0 ∨ addr < privateBase ∨ hhdmOffset < addr ∨ sharedBase hhdmOffset ≤ addr

/-! What a success promises. -/

/-- The list has one region more, from `a` on and of `length` bytes or more. -/
def Recorded (head head' : List (Vme ν)) (a length : Nat) : Prop :=
  ∃ pre vme post, head = pre ++ post ∧ head' = pre ++ vme :: post ∧ vme.start = a ∧
    vme.start+length ≤ vme.finish

def MmapHonest (hhdmOffset : Nat) (s : Mappings ν) (length : Nat) (flags : Int32)
    (file : Option ν) (offset : Nat) : Prop :=
  ∀ a t, s.mmap hhdmOffset length flags file offset = (some a, t) →
    Recorded (s.listFor flags) (t.listFor flags) a length

def MunmapHonest (hhdmOffset : Nat) (s : Mappings ν) (addr length : Nat) : Prop :=
  ∀ t pages, s.munmap hhdmOffset addr length = (0, t, pages) →
    ∀ va, addr ≤ va → va < addr+length → ¬ Mapped t.vmes va

variable {s t : Mappings ν} {head head' : List (Vme ν)} {hhdmOffset a length offset : Nat}
  {flags : Int32} {file : Option ν}

theorem listFor_setFor {vmes : List (Vme ν)} : (s.setFor flags vmes).listFor flags = vmes := by
  unfold Mappings.setFor Mappings.listFor
  split <;> rfl

theorem mmap_eq (hhdmOffset : Nat) (s : Mappings ν) (length : Nat) (flags : Int32)
    (file : Option ν) (offset : Nat) : s.mmap hhdmOffset length flags file offset =
    if length = 0 ∨ offset % pageSize ≠ 0 ∨ decide (flags &&& 2 ≠ 0) ≠ file.isNone then (none, s)
    else
      (insertVme (s.listFor flags) (baseFor hhdmOffset flags) (limitFor hhdmOffset flags)
        (pageAlignUp length) file offset (decide (flags &&& 1 ≠ 0))).elim (none, s)
          fun (va, vmes) => (some va, s.setFor flags vmes) := by
  unfold Mappings.mmap
  by_cases hl : length = 0
  · rw [if_pos hl, if_pos (Or.inl hl)]
  by_cases ho : offset % pageSize ≠ 0
  · rw [if_neg hl, if_pos ho, if_pos (Or.inr (Or.inl ho))]
  by_cases hf : decide (flags &&& 2 ≠ 0) ≠ file.isNone
  · rw [if_neg hl, if_neg ho, if_pos (Or.inr (Or.inr hf))]
    exact if_pos hf
  rw [if_neg hl, if_neg ho, if_neg (not_or.mpr ⟨hl, not_or.mpr ⟨ho, hf⟩⟩)]
  refine (if_neg hf).trans ?_
  by_cases hs : flags &&& 1 ≠ 0
  · simp only [if_pos hs, Mappings.listFor, Mappings.setFor, baseFor, limitFor,
      decide_eq_true hs]
    cases insertVme s.sharedVmes (sharedBase hhdmOffset) sharedLimit (pageAlignUp length) file
      offset true <;> rfl
  · simp only [if_neg hs, Mappings.listFor, Mappings.setFor, baseFor, limitFor,
      decide_eq_false hs]
    cases insertVme s.vmes privateBase hhdmOffset (pageAlignUp length) file offset false <;> rfl

theorem recorded_cons {vme : Vme ν} (h : Recorded head (vme :: head) a length) :
    length ≤ vme.finish-vme.start := by
  obtain ⟨pre,new,post,rfl,heq,-,hlen⟩ := h
  have hsum := congrArg (fun l => (l.map fun v : Vme ν => v.finish-v.start).sum) heq
  simp only [List.map_cons, List.map_append, List.sum_cons, List.sum_append] at hsum
  omega

/-! Lists in any run. -/

/-- What every run keeps, whatever the lengths: sorted lists in their ranges. -/
structure Listed (hhdmOffset : UInt64) (s : Mappings ν) : Prop where
  vmes : Along Vme.start Vme.finish privateBase s.vmes (top hhdmOffset)
  sharedVmes : Along Vme.start Vme.finish (sharedBase hhdmOffset.toNat) s.sharedVmes
    (max (sharedBase hhdmOffset.toNat) sharedLimit)

/-- The end of the range of the list that `mmap` walks. -/
def topFor (hhdmOffset : Nat) (flags : Int32) : Nat :=
  max (baseFor hhdmOffset flags) (limitFor hhdmOffset flags)

theorem topFor_lt (hhdmOffset : UInt64) (flags : Int32) :
    topFor hhdmOffset.toNat flags < 2^64 := by
  have hh := hhdmOffset.toNat_lt
  have hshared : sharedBase hhdmOffset.toNat < 2^64 := Nat.mod_lt _ (by decide)
  simp only [topFor, baseFor, limitFor, privateBase, sharedLimit]
  split <;> omega

section Listed
variable {hhdmOffset : UInt64}

theorem Listed.listFor (h : Listed hhdmOffset s) (flags : Int32) :
    Along Vme.start Vme.finish (baseFor hhdmOffset.toNat flags) (s.listFor flags)
      (topFor hhdmOffset.toNat flags) := by
  unfold topFor baseFor Mappings.listFor limitFor
  split
  · exact h.sharedVmes
  · exact h.vmes

theorem Listed.setFor (h : Listed hhdmOffset s) {vmes : List (Vme ν)}
    (hv : Along Vme.start Vme.finish (baseFor hhdmOffset.toNat flags) vmes
      (topFor hhdmOffset.toNat flags)) : Listed hhdmOffset (s.setFor flags vmes) := by
  unfold topFor baseFor limitFor at hv
  unfold Mappings.setFor
  split at hv
  · rename_i hs
    rw [if_pos hs]
    exact ⟨h.vmes, hv⟩
  · rename_i hs
    rw [if_neg hs]
    exact ⟨hv, h.sharedVmes⟩

theorem Listed.insertVme (h : Listed hhdmOffset s) {shared : Bool} {vmes : List (Vme ν)}
    (hs : insertVme (s.listFor flags) (baseFor hhdmOffset.toNat flags)
      (limitFor hhdmOffset.toNat flags) length file offset shared = some (a, vmes)) :
    Listed hhdmOffset (s.setFor flags vmes) ∧ Recorded (s.listFor flags) vmes a length := by
  obtain ⟨-,pre,post,heq,rfl,hpre,hpost,-⟩ := insertFrom_some (h.listFor flags)
    (topFor_lt hhdmOffset flags) (Nat.le_max_right _ _) hs
  exact ⟨h.setFor (hpre.append ⟨Nat.le_refl a, Nat.le_add_right .., hpost⟩),
    pre, _, post, heq, rfl, rfl, Nat.le_refl _⟩

theorem Listed.mmap (h : Listed hhdmOffset s) (length : Nat) (flags : Int32) (file : Option ν)
    (offset : Nat) :
    Listed hhdmOffset (s.mmap hhdmOffset.toNat length flags file offset).2 := by
  rw [mmap_eq]
  split
  · exact h
  · cases hs : Vmes.insertVme (s.listFor flags) (baseFor hhdmOffset.toNat flags)
      (limitFor hhdmOffset.toNat flags) (pageAlignUp length) file offset
      (decide (flags &&& 1 ≠ 0)) with
    | none => exact h
    | some result => exact (h.insertVme hs).1

theorem munmap_fails {addr : Nat} (h : MunmapRefused hhdmOffset.toNat addr)
    (hz : wrap (addr+pageAlignUp length) = addr) :
    s.munmap hhdmOffset.toNat addr length = (-1, s, []) := by
  unfold Mappings.munmap
  split
  · rfl
  rename_i haligned
  split
  · rfl
  dsimp only
  rw [hz, if_neg (Nat.lt_irrefl _)]
  split
  · rfl
  rename_i hbounds
  refine if_pos (Or.inl ?_)
  unfold MunmapRefused at h
  obtain h | h | h | h := h
  · exact absurd h haligned
  · exact absurd (Or.inl h) hbounds
  · exact absurd (Or.inr h) hbounds
  · exact h

theorem munmap_returns {addr : Nat} (h : ¬ MunmapRefused hhdmOffset.toNat addr)
    (hl : length ≠ 0) (hz : wrap (addr+pageAlignUp length) = addr) :
    s.munmap hhdmOffset.toNat addr length =
      (0, { s with vmes := (munmapFrom addr addr s.vmes).1 }, (munmapFrom addr addr s.vmes).2) := by
  simp only [MunmapRefused, not_or, not_not, not_lt, not_le] at h
  obtain ⟨haligned,hbase,hlimit,hshared⟩ := h
  unfold Mappings.munmap
  rw [if_neg (not_not.mpr haligned), if_neg hl]
  dsimp only
  rw [hz, if_neg (Nat.lt_irrefl _), if_neg (by omega), if_neg (by omega)]

theorem Listed.mapped_munmapFrom (h : Listed hhdmOffset s) {start finish va : Nat}
    (hrange : start ≤ finish) : Mapped (munmapFrom start finish s.vmes).1 va ↔
      ¬ (start ≤ va ∧ va < finish) ∧ Mapped s.vmes va := by
  rw [mapped_iff_backing, backing_munmapFrom h.vmes (top_lt hhdmOffset) hrange, mapped_iff_backing]
  split
  · rename_i hin
    exact iff_of_false Bool.false_ne_true fun hno => hno.1 hin
  · rename_i hin
    exact ⟨fun hm => ⟨hin, hm⟩, And.right⟩

theorem Listed.munmap (h : Listed hhdmOffset s) (addr length : Nat) :
    Listed hhdmOffset (s.munmap hhdmOffset.toNat addr length).2.1 := by
  obtain heq | ⟨-,-,-,hrange,heq⟩ := munmap_cases hhdmOffset.toNat s addr length
  · rw [heq]
    exact h
  · rw [heq]
    exact ⟨munmapFrom_along h.vmes hrange, h.sharedVmes⟩

theorem listed_invariant : (mappingMachine ν hhdmOffset).system.Invariant (Listed hhdmOffset) where
  init := by
    rintro s rfl
    exact ⟨Nat.le_max_left _ _, Nat.le_max_left _ _⟩
  step := by
    rintro s t h ⟨call,-,hs⟩
    cases hs
    cases call with
    | mmap length flags file offset => exact h.mmap ..
    | munmap addr length => exact h.munmap ..

/-! Lengths that round up. -/

theorem Listed.mmap_honest (h : Listed hhdmOffset s) {length : UInt64} (hl : RoundsUp length) :
    MmapHonest hhdmOffset.toNat s length.toNat flags file offset := by
  intro a t hm
  obtain ⟨-,hle,-⟩ := pageAlignUp_spec hl
  rw [mmap_eq] at hm
  split at hm
  · cases hm
  cases hs : Vmes.insertVme (s.listFor flags) (baseFor hhdmOffset.toNat flags)
      (limitFor hhdmOffset.toNat flags) (pageAlignUp length.toNat) file offset
      (decide (flags &&& 1 ≠ 0)) with
  | none =>
    rw [hs] at hm
    cases hm
  | some result =>
    rw [hs] at hm
    cases hm
    obtain ⟨pre,vme,post,heq,hnew,hstart,hlen⟩ := (h.insertVme hs).2
    rw [listFor_setFor]
    exact ⟨pre, vme, post, heq, hnew, hstart, by omega⟩

theorem Listed.munmap_honest (h : Listed hhdmOffset s) {addr length : UInt64}
    (hl : RoundsUp length) : MunmapHonest hhdmOffset.toNat s addr.toNat length.toNat := by
  intro t pages hm va hlo hhi hmapped
  obtain ⟨-,hle,-,hlt⟩ := pageAlignUp_spec hl
  have haddr := addr.toNat_lt
  obtain heq | ⟨hne,-,-,hrange,heq⟩ := munmap_cases hhdmOffset.toNat s addr.toNat length.toNat
  · rw [heq] at hm
    cases hm
  rw [heq] at hm
  cases hm
  have hfinish : wrap (addr.toNat+pageAlignUp length.toNat) =
      addr.toNat+pageAlignUp length.toNat := by
    rw [wrap] at *
    omega
  have hin := (h.mapped_munmapFrom hrange).mp hmapped
  rw [hfinish] at hin
  exact hin.1 ⟨hlo, by omega⟩

/-! Lengths within a page of 2^64. -/

theorem pageAlignUp_wrapped {length : UInt64} (hl : ¬ RoundsUp length) :
    pageAlignUp length.toNat = 0 := by
  have hlt := length.toNat_lt
  simp only [RoundsUp, not_lt] at hl
  simp only [pageAlignUp, wrap, pageSize]
  omega

theorem Listed.insertVme_zero (h : Listed hhdmOffset s) (shared : Bool) :
    Vmes.insertVme (s.listFor flags) (baseFor hhdmOffset.toNat flags)
        (limitFor hhdmOffset.toNat flags) 0 file offset shared =
      if baseFor hhdmOffset.toNat flags < limitFor hhdmOffset.toNat flags then
        some (baseFor hhdmOffset.toNat flags, ⟨baseFor hhdmOffset.toNat flags,
          baseFor hhdmOffset.toNat flags, file, offset, shared⟩ :: s.listFor flags)
      else none := by
  have hlist := h.listFor flags
  have hbase : wrap (baseFor hhdmOffset.toNat flags+0) = baseFor hhdmOffset.toNat flags :=
    Nat.mod_eq_of_lt (Nat.lt_of_le_of_lt (Nat.le_max_left _ _) (topFor_lt hhdmOffset flags))
  generalize baseFor hhdmOffset.toNat flags = base at hlist hbase ⊢
  generalize limitFor hhdmOffset.toNat flags = limit
  have hplace (next : List (Vme ν)) : insertFrom.place limit 0 file offset shared base next =
      if base < limit then some (base, ⟨base, base, file, offset, shared⟩ :: next) else none := by
    have hfits : fitsInRange base 0 limit = decide (base < limit) := by simp [fitsInRange]
    rw [insertFrom.place, hfits, hbase]
    simp only [decide_eq_true_eq]
  cases hs : s.listFor flags with
  | nil => exact hplace []
  | cons next rest =>
    rw [hs] at hlist
    exact (if_pos ⟨hlist.1, Nat.zero_le _⟩).trans (hplace _)

theorem Listed.mmap_wrapped (h : Listed hhdmOffset s) {length : UInt64} (hl : ¬ RoundsUp length) :
    MmapHonest hhdmOffset.toNat s length.toNat flags file offset ↔
      MmapRefused hhdmOffset.toNat flags file offset := by
  have hne : length.toNat ≠ 0 := by
    rw [RoundsUp] at hl
    omega
  by_cases hargs : offset % pageSize ≠ 0 ∨ decide (flags &&& 2 ≠ 0) ≠ file.isNone
  · refine iff_of_true (fun a t hm => ?_) (hargs.imp id Or.inl)
    rw [mmap_eq, if_pos (Or.inr hargs)] at hm
    cases hm
  have hmmap := mmap_eq hhdmOffset.toNat s length.toNat flags file offset
  rw [if_neg (not_or.mpr ⟨hne, hargs⟩), pageAlignUp_wrapped hl, h.insertVme_zero] at hmmap
  obtain ⟨ho,hf⟩ := not_or.mp hargs
  by_cases hroom : baseFor hhdmOffset.toNat flags < limitFor hhdmOffset.toNat flags
  -- the call records an empty region
  · rw [if_pos hroom] at hmmap
    refine iff_of_false (fun hh => ?_) (not_or.mpr ⟨ho, not_or.mpr ⟨hf, Nat.not_le.mpr hroom⟩⟩)
    have hrec := hh _ _ hmmap
    rw [listFor_setFor] at hrec
    have hlen := recorded_cons hrec
    rw [Nat.sub_self] at hlen
    exact hne (Nat.le_zero.mp hlen)
  · rw [if_neg hroom] at hmmap
    refine iff_of_true (fun a t hm => ?_) (Or.inr (Or.inr (Nat.not_lt.mp hroom)))
    rw [hmmap] at hm
    cases hm

theorem Listed.munmap_wrapped (h : Listed hhdmOffset s) {addr length : UInt64}
    (hl : ¬ RoundsUp length) : MunmapHonest hhdmOffset.toNat s addr.toNat length.toNat ↔
      MunmapRefused hhdmOffset.toNat addr.toNat ∨ ∀ va, addr.toNat ≤ va → ¬ Mapped s.vmes va := by
  have hz := pageAlignUp_wrapped hl
  have hfinish : wrap (addr.toNat+pageAlignUp length.toNat) = addr.toNat := by
    rw [hz, Nat.add_zero]
    exact Nat.mod_eq_of_lt addr.toNat_lt
  have hne : length.toNat ≠ 0 := by
    rw [RoundsUp] at hl
    omega
  by_cases hr : MunmapRefused hhdmOffset.toNat addr.toNat
  · refine iff_of_true (fun t pages hm => ?_) (Or.inl hr)
    rw [munmap_fails hr hfinish] at hm
    cases hm
  -- the call returns 0 with the same addresses mapped
  have hm := munmap_returns (s := s) hr hne hfinish
  have hsame (va : Nat) : Mapped (munmapFrom addr.toNat addr.toNat s.vmes).1 va ↔
      Mapped s.vmes va := by
    rw [h.mapped_munmapFrom (Nat.le_refl _)]
    exact and_iff_right (by omega)
  rw [or_iff_right hr]
  constructor
  · intro hh va hlo hva
    have hlt : va < 2^64 := by
      obtain ⟨vme,hv,-,hend⟩ := mapped_iff.mp hva
      have := (h.vmes.bounds hv).2.2
      have htop := top_lt hhdmOffset
      omega
    have hbase : privateBase ≤ addr.toNat := by
      by_contra hlow
      exact hr (Or.inr (Or.inl (Nat.not_le.mp hlow)))
    simp only [RoundsUp, privateBase] at hl hbase
    exact hh _ _ hm va hlo (by omega) ((hsame va).mpr hva)
  · intro hnone t' pages' hm' va hlo hhi hva
    rw [hm] at hm'
    cases hm'
    exact hnone va hlo ((hsame va).mp hva)

end Listed

/-- In every run, with any lengths, a call does what its length says if and only if the
round-up of the length does not wrap, or the call is refused for its other arguments, or, for
`munmap`, nothing is mapped from the address on. -/
theorem length_rounding_iff (ν : Type*) (hhdmOffset : UInt64) (s : Mappings ν)
    (hr : (mappingMachine ν hhdmOffset).system.Reachable s) (length : UInt64) :
    (∀ (flags : Int32) (file : Option ν) (offset : UInt64),
      MmapHonest hhdmOffset.toNat s length.toNat flags file offset.toNat ↔
        RoundsUp length ∨ MmapRefused hhdmOffset.toNat flags file offset.toNat) ∧
    ∀ addr : UInt64, MunmapHonest hhdmOffset.toNat s addr.toNat length.toNat ↔
      RoundsUp length ∨ MunmapRefused hhdmOffset.toNat addr.toNat ∨
        ∀ va, addr.toNat ≤ va → ¬ Mapped s.vmes va := by
  have h := listed_invariant.reachable hr
  refine ⟨fun flags file offset => ?_, fun addr => ?_⟩
  · by_cases hl : RoundsUp length
    · exact iff_of_true (h.mmap_honest hl) (Or.inl hl)
    · rw [or_iff_right hl]
      exact h.mmap_wrapped hl
  · by_cases hl : RoundsUp length
    · exact iff_of_true (h.munmap_honest hl) (Or.inl hl)
    · rw [or_iff_right hl]
      exact h.munmap_wrapped hl

deriving instance DecidableEq for Mappings

def onePage : Mappings String :=
  (mappingMachine String 0xFFFF800000000000).run ⟨[], []⟩ [.mmap 0x1000 2 none 0]

theorem onePage_reachable :
    (mappingMachine String 0xFFFF800000000000).system.Reachable onePage :=
  Machine.reachable_run (.init rfl) Machine.allowed_true

theorem length_rounding_page :
    MunmapHonest 0xFFFF800000000000 onePage 0x1000 0x1000 ↔
      RoundsUp 0x1000 ∨ MunmapRefused 0xFFFF800000000000 0x1000 ∨
        ∀ va, 0x1000 ≤ va → ¬ Mapped onePage.vmes va :=
  (length_rounding_iff String 0xFFFF800000000000 onePage onePage_reachable 0x1000).2 0x1000

/-- A length of 2^64-1: `mmap` gives an address and records nothing there, `munmap` returns 0
and unmaps nothing. -/
theorem length_rounding_fails :
    (mappingMachine String 0xFFFF800000000000).system.Reachable onePage ∧
    ¬ MmapHonest 0xFFFF800000000000 onePage (2^64-1) 2 none 0 ∧
    ¬ MunmapHonest 0xFFFF800000000000 onePage 0x1000 (2^64-1) := by
  refine ⟨onePage_reachable, fun hh => ?_, fun hh => ?_⟩
  · have hm : onePage.mmap 0xFFFF800000000000 (2^64-1) 2 none 0 =
        (some 0x1000, onePage.setFor 2 (⟨0x1000, 0x1000, none, 0, false⟩ :: onePage.vmes)) := by
      decide +kernel
    have hlen := recorded_cons (hh _ _ hm)
    exact absurd hlen (by decide)
  · have hm : onePage.munmap 0xFFFF800000000000 0x1000 (2^64-1) = (0, onePage, []) := by
      decide +kernel
    exact hh _ _ hm 0x1000 (Nat.le_refl _) (by decide) (by decide +kernel)

end NetKernel.Vmes
