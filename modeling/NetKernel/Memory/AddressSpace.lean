import NetKernel.Memory.Fork
import NetKernel.Memory.Teardown
import NetKernel.Memory.Vmes

/-! The address space of a thread from `init_thread` to `fini_thread`, with the frames that
it has from `physMem`, and what becomes of them. The other threads take and give frames at
any time. -/
namespace NetKernel.AddressSpaces
open Function Ownership Teardown Runs
open PageTables hiding Mapped
open Fork hiding State
open Frames (Ram)
open Heaps (wrap)
open Vmes (Mappings Mapped Paged findVme pagesOf sharedBase sharedLimit)

/-- A thread's address space. The `budget` is what the free list was at the start, without
the frames that other threads took since and with those they gave; the source has no such
field. -/
structure Space (ν : Type*) where
  ram : Ram
  stock : List Nat
  root : Nat
  maps : Mappings ν
  budget : List Nat

/-- What happens in a run: the calls of the thread, what other threads do with `physMem`, and
the stores of all threads. -/
inductive Call (ν : Type*) where
  | mmap (length : UInt64) (flags : Int32) (file : Option ν) (offset : UInt64)
  | munmap (addr length : UInt64)
  | pageFault (cr2 errorCode : UInt64) (content : Nat → Nat)
  | mapRange (start length : UInt64) (user write : Bool)
  | forkFrom (parent : Nat)
  | othersAlloc
  | othersFree (frame : Nat)
  | store (frame : Nat) (content : Nat → Nat)

variable {ν : Type*}

def Space.frames (s : Space ν) : State := (s.ram, s.stock)

def Space.hold (s : Space ν) (t : State) : Space ν := { s with ram := t.1, stock := t.2 }

/-- `init_thread`, of a thread whose lists are `maps`. -/
def initThread (common : Nat) (ram : Ram) (stock : List Nat) (maps : Mappings ν) :
    Option (Space ν) :=
  match alloc ram stock with
  | none => none
  | some (root, ram, pool) =>
    let upper := fun i => if 256 ≤ i ∧ i < 512 then ram common i else ram root i
    some ⟨update ram root upper, pool, root, maps, stock⟩

/-- The assertion of `check_canonical`. -/
def canonical (va : Nat) : Bool := decide (va < 2^47) || decide (2^64-2^47 ≤ va)

/-- The round of `map_range` for the page at `va`. -/
def mapPage (root : Nat) (user write : Bool) (s : State) (va : Nat) : Option State :=
  if canonical va then
    match alloc s.1 s.2 with
    | none => none
    | some (frame, ram, pool) => map ram pool root 3 (va >>> 12) frame user write
  else none

def mapRange (root start length : Nat) (user write : Bool) (s : State) : Option State :=
  if canonical start then
    ((pagesOf 0 length).map fun i => wrap (start+i)).foldlM (mapPage root user write) s
  else none

/-- The part of `pageFaultHandler` for a private page, with what `load_page` puts there; the
fault of a shared page is left out. -/
def pageFault (hhdmOffset : Nat) (maps : Mappings ν) (root cr2 errorCode : Nat)
    (content : Nat → Nat) (s : State) : Option State :=
  let va := cr2 / 4096 * 4096
  if errorCode.testBit 0 then none
  else if sharedBase hhdmOffset ≤ va ∧ va < sharedLimit ∧
    (findVme maps.sharedVmes va).isSome then none
  else if (findVme maps.vmes va).isNone then none
  else if canonical va then
    match alloc s.1 s.2 with
    | none => none
    | some (frame, ram, pool) =>
      map (update ram frame content) pool root 3 (va >>> 12) frame true true
  else none

section Definitions
variable (usable : Nat → Bool) (link : List Nat → Nat) (hhdmOffset : UInt64)

def Space.step (s : Space ν) : Call ν → Option (Space ν)
  | .mmap length flags file offset =>
    let (_, maps) := s.maps.mmap hhdmOffset.toNat length.toNat flags file offset.toNat
    some { s with maps := maps }
  | .munmap addr length =>
    let (_, maps, pages) := s.maps.munmap hhdmOffset.toNat addr.toNat length.toNat
    some { s.hold (unmapPages usable link s.root pages s.frames) with maps := maps }
  | .pageFault cr2 errorCode content =>
    (pageFault hhdmOffset.toNat s.maps s.root cr2.toNat errorCode.toNat content s.frames).map
      s.hold
  | .mapRange start length user write =>
    (mapRange s.root start.toNat length.toNat user write s.frames).map s.hold
  | .forkFrom parent => (forkFrom parent s.root s.frames).map s.hold
  | .othersAlloc =>
    (alloc s.ram s.stock).map fun (frame, ram, pool) =>
      { s with ram := ram, stock := pool, budget := s.budget.erase frame }
  | .othersFree frame =>
    some { s.hold (free usable link s.frames frame) with budget := frame :: s.budget }
  | .store frame content => some { s with ram := update s.ram frame content }

/-- `fini_thread`, after which memory and the free list are left. -/
def Space.finiThread (s : Space ν) : State :=
  let pages := s.maps.vmes.flatMap fun vme => pagesOf vme.start vme.finish
  let t := unmapPages usable link s.root pages s.frames
  free usable link (freePrivatePageTables usable link s.root t) s.root

/-- A thread's run. Its `physMem` has no frame twice, none at 0 and none beyond the memory
the kernel is configured for. -/
def spaceMachine (ν : Type*) (common : Nat) : Machine (Space ν) (Call ν) where
  Init s := ∃ ram stock maps, stock.Nodup ∧ (∀ f ∈ stock, Good usable f) ∧ Paged maps.vmes ∧
    initThread common ram stock maps = some s
  step := Space.step usable link hhdmOffset

end Definitions

/-! What a run must meet. -/

/-- No region goes beyond the lower half. -/
def Space.Low (s : Space ν) : Prop := ∀ vme ∈ s.maps.vmes, vme.finish ≤ 2^47

/-- The page is in a region and not mapped. -/
def Space.Fresh (s : Space ν) (va : Nat) : Prop :=
  Mapped s.maps.vmes va ∧ findPte s.ram 3 s.root (va >>> 12) = none

instance (s : Space ν) : Decidable s.Low :=
  inferInstanceAs (Decidable (∀ vme ∈ s.maps.vmes, vme.finish ≤ 2^47))

instance (s : Space ν) (va : Nat) : Decidable (s.Fresh va) :=
  inferInstanceAs (Decidable (_ ∧ findPte s.ram 3 s.root (va >>> 12) = none))

/-- The processor tells in bit 0 of the error code whether the page is present, a parent has
small pages and frames of its own, other threads free their own frames, and no store is to a
free frame or a table. What is left is about `map_range` and `fork_from`: the pages they map
are fresh. -/
def Space.Allows (usable : Nat → Bool) (s : Space ν) : Call ν → Prop
  | .mmap .. | .munmap .. | .othersAlloc => True
  | .pageFault cr2 errorCode _ =>
    errorCode.toNat.testBit 0 = (findPte s.ram 3 s.root (cr2.toNat >>> 12)).isSome
  | .mapRange start length _ _ =>
    ∀ i ∈ pagesOf 0 length.toNat, s.Fresh (wrap (start.toNat+i))
  | .forkFrom parent => SmallPages s.ram parent ∧ (∀ f, LowerFrame s.ram parent f → f ∉ s.budget) ∧
    ∀ page ∈ userPages s.ram parent, s.Fresh (page.1 <<< 12)
  | .othersFree frame => frame ∉ s.budget ∧ Good usable frame
  | .store frame _ => frame ∉ s.stock ∧ frame ∉ s.root :: below s.ram 256 2 s.root

/-! The frames of the thread are those of its tables, and its pages are in its regions. -/

structure Owned (usable : Nat → Bool) (s : Space ν) : Prop where
  nodup : s.budget.Nodup
  good : ∀ f ∈ s.budget, Good usable f
  tree : Tree s.root s.budget s.frames
  paged : Paged s.maps.vmes
  covered : ∀ vpn < 2^35, (findPte s.ram 3 s.root vpn).isSome → Mapped s.maps.vmes (vpn <<< 12)

variable {usable : Nat → Bool} {link : List Nat → Nat} {s s' : Space ν} {t t' : State}
  {root common va : Nat} {budget : List Nat} {user write : Bool} {maps : Mappings ν}
  {new : Nat → Prop} {hhdmOffset : UInt64}

theorem Owned.small (h : Owned usable s) : ∀ f ∈ s.budget, f < 2^36 :=
  fun f hf => (h.good f hf).lt

theorem mapped_page (h : Paged maps.vmes) (hm : Mapped maps.vmes va) :
    Mapped maps.vmes ((va >>> 12) <<< 12) := by
  obtain ⟨vme,hv,hin⟩ := Vmes.mapped_iff.mp hm
  obtain ⟨⟨hs,hf⟩,-⟩ := h vme hv
  refine Vmes.mapped_iff.mpr ⟨vme, hv, ?_⟩
  rw [Nat.shiftLeft_eq, Nat.shiftRight_eq_div_pow]
  simp only [Vmes.pageSize] at *
  omega

theorem page_vpn {cr2 : Nat} : (cr2 / 4096 * 4096) >>> 12 = cr2 >>> 12 := by
  rw [Nat.shiftRight_eq_div_pow, Nat.shiftRight_eq_div_pow]
  omega

theorem Space.Low.vpn (h : s.Low) (hm : Mapped s.maps.vmes va) : va >>> 12 < 2^35 := by
  obtain ⟨vme,hv,hin⟩ := Vmes.mapped_iff.mp hm
  have hlow := h vme hv
  rw [Nat.shiftRight_eq_div_pow]
  omega

theorem Owned.hold (h : Owned usable s) (hg : Grown s.root s.budget s.frames t new)
    (hnew : ∀ vpn, new vpn → Mapped s.maps.vmes (vpn <<< 12)) : Owned usable (s.hold t) := by
  refine ⟨h.nodup, h.good, hg.tree, h.paged, fun vpn hv hsome => ?_⟩
  obtain hn | hsome := hg.mapped vpn hv hsome
  · exact hnew vpn hn
  · exact h.covered vpn hv hsome

theorem initThread_owned {ram : Ram} {stock : List Nat} (hn : stock.Nodup)
    (hg : ∀ f ∈ stock, Good usable f) (hp : Paged maps.vmes)
    (hs : initThread common ram stock maps = some s) : Owned usable s := by
  cases stock with
  | nil => cases hs
  | cons root pool =>
    cases hs
    have habsent (i : Nat) (hi : i < 256) : present (update (Frames.zeroFrame ram root) root
        (fun i => if 256 ≤ i ∧ i < 512 then Frames.zeroFrame ram root common i
          else Frames.zeroFrame ram root root i) root i) = false := by
      rw [update_self, if_neg (by omega), Frames.zeroFrame, update_self]
      exact present_zero
    generalize update (Frames.zeroFrame ram root) root _ = ram₁ at habsent ⊢
    refine ⟨hn, hg, ⟨?_, fun i hi hpres => ?_⟩, hp, fun vpn hv hsome => ?_⟩
    · change (pool ++ root :: below ram₁ 256 3 root).Perm (root :: pool)
      rw [below_absent habsent]
      exact List.perm_append_singleton root pool
    · exact absurd ((habsent i hi).symm.trans hpres) (by decide)
    · simp [findPte, habsent _ (index_low hv)] at hsome

section Pages
variable (hn : budget.Nodup) (hsmall : ∀ f ∈ budget, f < 2^36)
include hn hsmall

theorem mapPage_grown (h : Tree root budget t) (hv : va >>> 12 < 2^35)
    (hfree : findPte t.1 3 root (va >>> 12) = none)
    (hs : mapPage root user write t va = some t') :
    Grown root budget t t' (· = va >>> 12) := by
  obtain ⟨ram,stock⟩ := t
  unfold mapPage at hs
  split at hs
  · cases stock with
    | nil => cases hs
    | cons frame pool => exact h.map hn hsmall (fun g hg => update_of_ne hg _ _) hv hfree hs
  · cases hs

theorem pageFault_grown {hhdmOffset cr2 errorCode : Nat} {content : Nat → Nat}
    (h : Tree root budget t)
    (hs : pageFault hhdmOffset maps root cr2 errorCode content t = some t') :
    errorCode.testBit 0 = false ∧ Mapped maps.vmes (cr2 / 4096 * 4096) ∧
      ((cr2 / 4096 * 4096) >>> 12 < 2^35 →
        findPte t.1 3 root ((cr2 / 4096 * 4096) >>> 12) = none →
          Grown root budget t t' (· = (cr2 / 4096 * 4096) >>> 12)) := by
  obtain ⟨ram,stock⟩ := t
  simp only [pageFault] at hs
  split at hs
  · cases hs
  rename_i hbit
  split at hs
  · cases hs
  split at hs
  · cases hs
  rename_i hvme
  refine ⟨by simpa using hbit, by simpa [Mapped, Option.isSome_iff_ne_none] using hvme, ?_⟩
  intro hv hfree
  split at hs
  · cases stock with
    | nil => cases hs
    | cons frame pool =>
      refine h.map hn hsmall (fun g hg => ?_) hv hfree hs
      rw [update_of_ne hg, Frames.zeroFrame, update_of_ne hg]
  · cases hs

theorem mapPages_grown {pages : List Nat} (h : Tree root budget t)
    (hnodup : (pages.map (· >>> 12)).Nodup)
    (hfree : ∀ va ∈ pages, va >>> 12 < 2^35 ∧ findPte t.1 3 root (va >>> 12) = none)
    (hs : pages.foldlM (mapPage root user write) t = some t') :
    Grown root budget t t' (· ∈ pages.map (· >>> 12)) := by
  induction pages generalizing t with
  | nil =>
    cases hs
    exact h.grown _
  | cons va pages ih =>
    rw [List.foldlM_cons] at hs
    obtain ⟨t₁,hs₁,hs⟩ := Option.bind_eq_some_iff.mp hs
    obtain ⟨hnot,hnodup⟩ := List.nodup_cons.mp hnodup
    obtain ⟨hv,hnone⟩ := hfree va List.mem_cons_self
    have hgrown := mapPage_grown hn hsmall h hv hnone hs₁
    refine (hgrown.trans (ih hgrown.tree hnodup (fun va' hmem => ?_) hs)).mono fun vpn hnew => ?_
    · obtain ⟨hv',hnone'⟩ := hfree va' (List.mem_cons_of_mem _ hmem)
      refine ⟨hv', Option.not_isSome_iff_eq_none.mp fun hsome => ?_⟩
      obtain heq | hsome := hgrown.mapped _ hv' hsome
      · exact hnot (List.mem_map.mpr ⟨va', hmem, heq⟩)
      · rw [hnone'] at hsome
        cases hsome
    · exact List.mem_cons.mpr hnew

theorem forkFrom_grown {parent : Nat} (h : Tree root budget t) (hpages : SmallPages t.1 parent)
    (haway : ∀ f, LowerFrame t.1 parent f → f ∉ budget)
    (hfree : ∀ page ∈ userPages t.1 parent, findPte t.1 3 root page.1 = none)
    (hs : forkFrom parent root t = some t') :
    Grown root budget t t' (· ∈ (userPages t.1 parent).map Prod.fst) := by
  have hcloning : Cloning t.1 root (· ∉ budget)
      (fun page => page.1 < 2^35 ∧ findPte t.1 3 root page.1 = none)
      fun done t' => Grown root budget t t' (· ∈ done.map Prod.fst) := by
    refine ⟨fun done t₁ hgrown f hf => hgrown.same f hf, fun done t₁ page t₂ hgrown hr hs => ?_⟩
    obtain ⟨hv,hnone⟩ := hr.ok page List.mem_cons_self
    have hnew : page.1 ∉ done.map Prod.fst := by
      have hnodup := hr.nodup
      rw [List.map_append, List.nodup_append] at hnodup
      exact fun hm => hnodup.2.2 _ hm _ List.mem_cons_self rfl
    have hnone₁ : findPte t₁.1 3 root page.1 = none := by
      refine Option.not_isSome_iff_eq_none.mp fun hsome => ?_
      obtain hm | hsome := hgrown.mapped _ hv hsome
      · exact hnew hm
      · rw [hnone] at hsome
        cases hsome
    obtain ⟨ram,stock⟩ := t₁
    cases stock with
    | nil => cases hs
    | cons dst pool =>
      have hstep : Grown root budget (ram, dst :: pool) t₂ (· = page.1) := by
        refine hgrown.tree.map hn hsmall (fun g hg => ?_) hv hnone₁ hs
        rw [Fork.copyFrame, update_of_ne hg, Frames.zeroFrame, update_of_ne hg]
      refine (hgrown.trans hstep).mono fun vpn hm => ?_
      rw [List.map_append, List.mem_append]
      exact hm.imp_right fun heq => List.mem_singleton.mpr heq
  have hready : Ready (fun page => page.1 < 2^35 ∧ findPte t.1 3 root page.1 = none) []
      (userPages t.1 parent) := by
    refine ⟨?_, fun page hp => ⟨((mem_userPages hpages).mp hp).1, hfree page hp⟩⟩
    rw [List.nil_append]
    exact nodup_userPages hpages
  have hstart := h.grown (· ∈ ([] : List (Nat × Nat)).map Prod.fst)
  rw [hcloning.forkFrom_eq hstart hpages haway hready] at hs
  have hall := hcloning.run hstart hready hs
  rw [List.nil_append] at hall
  exact hall

end Pages

theorem Owned.elsewhere (h : Owned usable s) {ram : Ram} {stock : List Nat} (hn : budget.Nodup)
    (hg : ∀ f ∈ budget, Good usable f)
    (hsame : ∀ f ∈ s.root :: below s.ram 256 3 s.root, ram f = s.ram f)
    (hframes : (stock ++ s.root :: below s.ram 256 3 s.root).Perm budget) :
    Owned usable { s with ram := ram, stock := stock, budget := budget } := by
  refine ⟨hn, hg, ⟨?_, h.tree.plain.congr hsame⟩, h.paged, fun vpn hv hsome => h.covered vpn hv ?_⟩
  · change (stock ++ s.root :: below ram 256 3 s.root).Perm budget
    rw [below_congr hsame]
    exact hframes
  · rwa [← findPte_congr (index_low hv) hsame]

theorem Owned.othersAlloc (h : Owned usable s)
    (hs : s.step usable link hhdmOffset .othersAlloc = some s') : Owned usable s' := by
  obtain ⟨ram,stock,root,maps,budget⟩ := s
  cases stock with
  | nil => cases hs
  | cons frame pool =>
    cases hs
    have hframes : (frame :: (pool ++ root :: below ram 256 3 root)).Perm budget := h.tree.frames
    have hnot := (List.nodup_cons.mp (hframes.nodup_iff.mpr h.nodup)).1
    refine h.elsewhere (h.nodup.erase frame) (fun f hf => h.good f (List.mem_of_mem_erase hf))
      (fun f hf => update_of_ne (fun heq => hnot ?_) _ _) ?_
    · exact List.mem_append_right _ (heq ▸ hf)
    · have herase := hframes.erase frame
      rwa [List.erase_cons_head] at herase

theorem Owned.othersFree (h : Owned usable s) {frame : Nat} (hf : frame ∉ s.budget)
    (hg : Good usable frame)
    (hs : s.step usable link hhdmOffset (.othersFree frame) = some s') : Owned usable s' := by
  cases hs
  have hnot : frame ∉ s.stock ++ s.root :: below s.ram 256 3 s.root := fun hm =>
    hf (h.tree.frames.mem_iff.mp hm)
  have hfree : free usable link s.frames frame = _ := free_good hg fun hm =>
    hnot (List.mem_append_left _ hm)
  rw [hfree]
  refine h.elsewhere (List.nodup_cons.mpr ⟨hf, h.nodup⟩) (List.forall_mem_cons.mpr ⟨hg, h.good⟩)
    (fun f hm => update_of_ne (fun heq => hnot ?_) _ _) (h.tree.frames.cons frame)
  exact List.mem_append_right _ (heq ▸ hm)

theorem Owned.store (h : Owned usable s) {frame : Nat} {content : Nat → Nat}
    (hf : frame ∉ s.root :: below s.ram 256 2 s.root)
    (hs : s.step usable link hhdmOffset (.store frame content) = some s') :
    Owned usable s' := by
  cases hs
  have hsame (f : Nat) (hm : f ∈ s.root :: below s.ram 256 2 s.root) :
      update s.ram frame content f = s.ram f :=
    update_of_ne (fun heq : f = frame => hf (heq ▸ hm)) _ _
  refine ⟨h.nodup, h.good, ⟨?_, Plain.congr_tables hsame h.tree.plain⟩, h.paged, fun vpn hv hsome =>
    h.covered vpn hv ?_⟩
  · change (s.stock ++ s.root :: below (update s.ram frame content) 256 3 s.root).Perm s.budget
    rw [below_congr_tables hsame]
    exact h.tree.frames
  · rwa [← findPte_congr_tables hsame (index_low hv)]

theorem Owned.mmap (h : Owned usable s) {length : UInt64} {flags : Int32} {file : Option ν}
    {offset : UInt64}
    (hs : s.step usable link hhdmOffset (.mmap length flags file offset) = some s') :
    Owned usable s' := by
  cases hs
  obtain ⟨hpaged,hkept⟩ := h.paged.mmap hhdmOffset length.toNat flags file offset.toNat
  exact ⟨h.nodup, h.good, h.tree, hpaged, fun vpn hv hsome => hkept _ (h.covered vpn hv hsome)⟩

theorem Owned.munmap (h : Owned usable s) (hlow : s.Low) {addr length : UInt64}
    (hs : s.step usable link hhdmOffset (.munmap addr length) = some s') : Owned usable s' := by
  cases hs
  obtain ⟨hpaged,hcovers,hmapped⟩ := h.paged.munmap hhdmOffset addr.toNat length.toNat
  obtain ⟨htree,hleft⟩ := h.tree.unmapPages link h.nodup h.good fun va hva =>
    hlow.vpn (hmapped va hva)
  refine ⟨h.nodup, h.good, htree, hpaged, fun vpn hv hsome => ?_⟩
  obtain ⟨hbefore,hnot⟩ := hleft vpn hv hsome
  have haligned : vpn <<< 12 % Vmes.pageSize = 0 := by
    rw [Nat.shiftLeft_eq]
    exact Nat.mul_mod_left ..
  refine (hcovers _ haligned (h.covered vpn hv hbefore)).resolve_right fun hm => hnot _ hm ?_
  exact Nat.shiftLeft_shiftRight ..

theorem Owned.pageFault (h : Owned usable s) (hlow : s.Low) {cr2 errorCode : UInt64}
    {content : Nat → Nat}
    (hcode : errorCode.toNat.testBit 0 = (findPte s.ram 3 s.root (cr2.toNat >>> 12)).isSome)
    (hs : s.step usable link hhdmOffset (.pageFault cr2 errorCode content) = some s') :
    Owned usable s' := by
  obtain ⟨t,ht,rfl⟩ := Option.map_eq_some_iff.mp hs
  obtain ⟨hbit,hmapped,hgrown⟩ := pageFault_grown h.nodup h.small h.tree ht
  have hnone : findPte s.ram 3 s.root (cr2.toNat >>> 12) = none := by
    simpa [hbit] using hcode
  refine h.hold (hgrown (hlow.vpn hmapped) ?_) fun vpn hv => hv ▸ mapped_page h.paged hmapped
  rw [page_vpn]
  exact hnone

theorem nodup_pages (start : Nat) (length : UInt64) :
    (((pagesOf 0 length.toNat).map fun i => wrap (start+i)).map (· >>> 12)).Nodup := by
  have hlen := length.toNat_lt
  rw [List.map_map, pagesOf]
  refine List.Nodup.map_on (fun i hi j hj heq => ?_) (List.nodup_range' 4096 (by decide))
  obtain ⟨a,ha,rfl⟩ := List.mem_range'.mp hi
  obtain ⟨b,hb,rfl⟩ := List.mem_range'.mp hj
  simp only [Function.comp, wrap, Nat.shiftRight_eq_div_pow, Vmes.pageSize] at *
  omega

theorem Owned.mapRange (h : Owned usable s) (hlow : s.Low) {start length : UInt64}
    (hfresh : ∀ i ∈ pagesOf 0 length.toNat, s.Fresh (wrap (start.toNat+i)))
    (hs : s.step usable link hhdmOffset (.mapRange start length user write) = some s') :
    Owned usable s' := by
  obtain ⟨t,ht,rfl⟩ := Option.map_eq_some_iff.mp hs
  unfold AddressSpaces.mapRange at ht
  split at ht
  · refine h.hold (mapPages_grown h.nodup h.small h.tree (nodup_pages _ _) (fun va hm => ?_) ht)
      fun vpn hm => ?_
    · obtain ⟨i,hi,rfl⟩ := List.mem_map.mp hm
      obtain ⟨hmapped,hnone⟩ := hfresh i hi
      exact ⟨hlow.vpn hmapped, hnone⟩
    · obtain ⟨va,hva,rfl⟩ := List.mem_map.mp hm
      obtain ⟨i,hi,rfl⟩ := List.mem_map.mp hva
      exact mapped_page h.paged (hfresh i hi).1
  · cases ht

theorem Owned.forkFrom (h : Owned usable s) {parent : Nat} (hsmall : SmallPages s.ram parent)
    (haway : ∀ f, LowerFrame s.ram parent f → f ∉ s.budget)
    (hfresh : ∀ page ∈ userPages s.ram parent, s.Fresh (page.1 <<< 12))
    (hs : s.step usable link hhdmOffset (.forkFrom parent) = some s') : Owned usable s' := by
  obtain ⟨t,ht,rfl⟩ := Option.map_eq_some_iff.mp hs
  have hpage (page : Nat × Nat) : page.1 <<< 12 >>> 12 = page.1 := Nat.shiftLeft_shiftRight ..
  refine h.hold (forkFrom_grown h.nodup h.small h.tree hsmall haway (fun page hm => ?_) ht)
    fun vpn hm => ?_
  · rw [← hpage page]
    exact (hfresh page hm).2
  · obtain ⟨page,hp,rfl⟩ := List.mem_map.mp hm
    exact (hfresh page hp).1

theorem Owned.step (h : Owned usable s) (hlow : s.Low) {call : Call ν}
    (ha : s.Allows usable call) (hs : s.step usable link hhdmOffset call = some s') :
    Owned usable s' := by
  cases call with
  | mmap length flags file offset => exact h.mmap hs
  | munmap addr length => exact h.munmap hlow hs
  | pageFault cr2 errorCode content => exact h.pageFault hlow ha hs
  | mapRange start length user write => exact h.mapRange hlow ha hs
  | forkFrom parent => exact h.forkFrom ha.1 ha.2.1 ha.2.2 hs
  | othersAlloc => exact h.othersAlloc hs
  | othersFree frame => exact h.othersFree ha.1 ha.2 hs
  | store frame content => exact h.store ha.2 hs

theorem owned_invariant : ((spaceMachine usable link hhdmOffset ν common).under
    fun s call => s.Low ∧ s.Allows usable call).Invariant (Owned usable) where
  init := by
    rintro s ⟨ram,stock,maps,hn,hg,hp,hs⟩
    exact initThread_owned hn hg hp hs
  step := by
    rintro s s' h ⟨call,⟨hlow,ha⟩,hs⟩
    exact h.step hlow ha hs

/-- In a run whose `map_range` and `fork_from` map only pages in a private region that are
not mapped, and with no private region beyond the lower half, `fini_thread` leaves the free
list with the frames it had at the start, apart from what other threads took and gave. -/
theorem teardown_complete (usable : Nat → Bool) (link : List Nat → Nat) (hhdmOffset : UInt64)
    (ν : Type*) (common : Nat) (s : Space ν)
    (hr : ((spaceMachine usable link hhdmOffset ν common).under
      fun s call => s.Low ∧ s.Allows usable call).Reachable s) (hlow : s.Low) :
    (s.finiThread usable link).2.Perm s.budget := by
  have h := owned_invariant.reachable hr
  have hpages (va : Nat)
      (hva : va ∈ s.maps.vmes.flatMap fun vme => pagesOf vme.start vme.finish) :
      va >>> 12 < 2^35 := by
    obtain ⟨vme,hv,hin⟩ := List.mem_flatMap.mp hva
    obtain ⟨⟨hs,hf⟩,-⟩ := h.paged vme hv
    obtain ⟨-,hin⟩ := (Vmes.mem_pagesOf hs hf).mp hin
    exact hlow.vpn (Vmes.mapped_iff.mpr ⟨vme, hv, hin⟩)
  obtain ⟨htree,hleft⟩ := h.tree.unmapPages link h.nodup h.good hpages
  refine htree.removed link h.nodup h.good fun vpn hv => ?_
  refine Option.not_isSome_iff_eq_none.mp fun hsome => ?_
  obtain ⟨hbefore,hnot⟩ := hleft vpn hv hsome
  obtain ⟨vme,hm,hin⟩ := Vmes.mapped_iff.mp (h.covered vpn hv hbefore)
  obtain ⟨⟨hs,hf⟩,-⟩ := h.paged vme hm
  refine hnot (vpn <<< 12) (List.mem_flatMap.mpr ⟨vme, hm, ?_⟩) (Nat.shiftLeft_shiftRight ..)
  refine (Vmes.mem_pagesOf hs hf).mpr ⟨?_, hin⟩
  rw [Nat.shiftLeft_eq]
  exact Nat.mul_mod_left ..

def lowFrame (f : Nat) : Bool := decide (f < 64)

/-- A machine with few frames, none of which `free` links anywhere. -/
def smallMachine : Machine (Space Unit) (Call Unit) :=
  spaceMachine lowFrame (fun _ => 0) 0xFFFF800000000000 Unit 0

/-- A new thread beside the one with the pages of `threePages`. -/
def newSpace : Space Unit :=
  ⟨update (Frames.zeroFrame threePages 30) 30 fun i =>
      if 256 ≤ i ∧ i < 512 then Frames.zeroFrame threePages 30 0 i
      else Frames.zeroFrame threePages 30 30 i,
    [31, 32, 33, 34, 35, 36, 37, 38, 39, 40], 30, ⟨[], []⟩,
    [30, 31, 32, 33, 34, 35, 36, 37, 38, 39, 40]⟩

theorem newSpace_good : ∀ f ∈ newSpace.budget, Good lowFrame f := by
  intro f hf
  have hall : ∀ f ∈ newSpace.budget, f ≠ 0 ∧ lowFrame f = true ∧ ppnInConfiguredPhys f = true := by
    decide
  obtain ⟨h0,hu,hc⟩ := hall f hf
  exact ⟨h0, hu, hc⟩

theorem newSpace_init : smallMachine.Init newSpace :=
  ⟨threePages, newSpace.budget, ⟨[], []⟩, by decide, newSpace_good, by simp [Paged], rfl⟩

/-- A region, a copy of the parent's two pages in it, two pages more and a hole. -/
def spaceCalls : List (Call Unit) :=
  [.mmap 0x6000 2 none 0, .forkFrom 1, .pageFault 0x1008 6 fun _ => 0,
    .mapRange 0x2000 0x1000 true true, .munmap 0x1000 0x2000]

theorem teardown_complete_forked :
    ((smallMachine.run newSpace spaceCalls).finiThread lowFrame (fun _ => 0)).2.Perm
      [30, 31, 32, 33, 34, 35, 36, 37, 38, 39, 40] := by
  have hsame (f : Nat) (hf : LowerFrame threePages 1 f) : newSpace.ram f = threePages f := by
    have hlt := threePages_frames hf
    change update (update threePages 30 _) 30 _ f = threePages f
    rw [update_of_ne (by omega), update_of_ne (by omega)]
  have hr : (smallMachine.under fun s call => s.Low ∧ s.Allows lowFrame call).Reachable
      (smallMachine.run newSpace spaceCalls) :=
    Machine.reachable_run (.init newSpace_init) ?_
  · have hperm := teardown_complete lowFrame (fun _ => 0) 0xFFFF800000000000 Unit 0 _ hr
      (by decide +kernel)
    have hbudget : (smallMachine.run newSpace spaceCalls).budget = newSpace.budget := by
      decide +kernel
    rw [hbudget] at hperm
    exact hperm
  refine ⟨⟨by decide, trivial⟩, ⟨by decide, ?_, ?_, ?_⟩, ⟨by decide +kernel, ?_⟩,
    ⟨by decide +kernel, ?_⟩, ⟨by decide +kernel, trivial⟩, trivial⟩
  · exact threePages_small.congr hsame
  · intro f hf hm
    have hlt : f < 12 := threePages_frames (hf.of_congr hsame)
    have hge : ∀ g ∈ newSpace.budget, 30 ≤ g := by decide
    have := hge f hm
    omega
  · decide +kernel
  · change _ = (findPte _ 3 _ _).isSome
    decide +kernel
  · change ∀ i ∈ pagesOf 0 0x1000, Space.Fresh _ _
    decide +kernel

/-- The frame of a page that `map_range` maps outside the regions does not come back. -/
theorem teardown_leaks : ¬∀ s, smallMachine.system.Reachable s →
    (s.finiThread lowFrame (fun _ => 0)).2.Perm s.budget := by
  intro hall
  have hrun : (mapRange newSpace.root 0x5000 0x1000 true true newSpace.frames).map
      (fun t => t.2 ++ newSpace.root :: below t.1 256 2 newSpace.root) =
        some [35, 36, 37, 38, 39, 40, 30, 32, 33, 34] := by
    decide +kernel
  obtain ⟨t,ht,hlist⟩ := Option.map_eq_some_iff.mp hrun
  have hr : smallMachine.system.Reachable (newSpace.hold t) := by
    refine .step (.init newSpace_init) ⟨.mapRange 0x5000 0x1000 true true, trivial, ?_⟩
    exact congrArg (Option.map newSpace.hold) ht
  obtain ⟨_,_,_,hn,hg,hp,hinit⟩ := newSpace_init
  have hstart : Owned lowFrame newSpace := initThread_owned hn hg hp hinit
  rw [mapRange, if_pos (by decide)] at ht
  have hgrown := mapPages_grown hstart.nodup hstart.small hstart.tree
    (nodup_pages 0x5000 0x1000) (by decide +kernel) ht
  have hfini : (newSpace.hold t).finiThread lowFrame (fun _ => 0) =
      free lowFrame (fun _ => 0) (freePrivatePageTables lowFrame (fun _ => 0) newSpace.root t)
        newSpace.root := rfl
  have hgood (f : Nat) (hf : f ∈ newSpace.root :: below t.1 256 2 newSpace.root) :
      Good lowFrame f := by
    have hmem := List.mem_append_right t.2 hf
    rw [hlist] at hmem
    have hsub : ∀ g ∈ [35, 36, 37, 38, 39, 40, 30, 32, 33, 34], g ∈ newSpace.budget := by decide
    exact newSpace_good f (hsub f hmem)
  have hback := removed_perm (fun _ => 0) hgrown.tree.plain (by rw [hlist]; decide) hgood
  rw [hlist, ← hfini] at hback
  have hmine : 31 ∈ (newSpace.hold t).budget := by
    change 31 ∈ newSpace.budget
    decide
  have hmem := hback.mem_iff.mp ((hall _ hr).mem_iff.mpr hmine)
  exact absurd hmem (by decide)

end NetKernel.AddressSpaces
