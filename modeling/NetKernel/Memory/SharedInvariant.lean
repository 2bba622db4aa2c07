import NetKernel.Memory.SharedMappings

/-! What holds of the frames in every run: whose they are, which pages of the shared range are
present, and with which frame. -/
namespace NetKernel.SharedMappings
open Function Runs PageTables Teardown
open AddressSpaces (canonical)
open Blocks (BlockIo littleEndian)
open Frames (Ram DirectMap storeWord zeroFrame toPpn)
open Heaps (wrap sub64)
open Vmes (Vme Mappings findVme insertFrom pageAlignUp pagesOf sharedBase sharedLimit
  configuredMaxPa)
open Territories

variable {ν : Type*}

def Pc.frame : Pc ν → Option Nat
  | .loading _ _ frame | .mapping _ _ frame => some frame
  | _ => none

def Pc.page : Pc ν → Option Nat
  | .checking va | .allocating _ va | .loading _ va _ | .mapping _ va _ => some va
  | _ => none

def Event.installed : Event → Option (Nat × Nat)
  | .install va frame => some (va, frame)
  | _ => none

def Event.windowed : Event → Option Nat
  | .window va => some va
  | _ => none

def installs (log : List Event) : List (Nat × Nat) := log.filterMap Event.installed

/-- The pages that `map_mmio` has mapped. -/
def windows (log : List Event) : List Nat := log.filterMap Event.windowed

def Boot.Shared (b : Boot) (va : Nat) : Prop :=
  sharedBase b.hhdmOffset ≤ va ∧ va < sharedLimit ∧ va % 4096 = 0

def HasFrame (b : Boot) (ram : Ram) (va frame : Nat) : Prop :=
  ∃ e, findPte ram 3 b.common (va >>> 12) = some e ∧ ram e.1 e.2 = makeEntry frame true true

/-- A frame that a handler holds is in no one else's hands. -/
structure Threads (b : Boot) (own : Nat → Owner) (made : Nat) (pc : Nat → Pc ν) : Prop where
  unborn : ∀ t, made ≤ t → pc t = .unborn
  held : ∀ t f, (pc t).frame = some f → own f = .held t
  place : ∀ t va, (pc t).page = some va → b.Shared va

structure Core (usable : Nat → Bool) (b : Boot) (own : Nat → Owner) (s : Kernel ν) : Prop where
  layout : Layout usable b.common own s.ram s.stock s.root
  threads : Threads b own s.made s.pc
  owned : ∀ va f, (va, f) ∈ installs s.log → own f = .page va ∧ b.Shared va
  mapped : ∀ va f, (va, f) ∈ installs s.log → va ∉ windows s.log → HasFrame b s.ram va f
  present : ∀ va, b.Shared va → walk s.ram 3 b.common (va >>> 12) ≠ none →
    va ∈ windows s.log ∨ ∃ f, (va, f) ∈ installs s.log

variable {usable : Nat → Bool} {link : List Nat → Nat} {io : ν → BlockIo} {b : Boot}
  {own own' : Nat → Owner} {s s' : Kernel ν} {t f va va' : Nat} {pc : Pc ν}
  {changed : Nat → Prop} {ram ram' : Ram} {m m' : State}

/-! Pages and their numbers. -/

theorem Boot.sharedBase_eq (b : Boot) : sharedBase b.hhdmOffset = b.hhdmOffset+2^27 := by
  have hroom := b.room
  rw [sharedBase, configuredMaxPa, wrap]
  omega

theorem Boot.Shared.canonical (h : b.Shared va) : canonical va = true := by
  obtain ⟨hbase,hlimit,-⟩ := h
  have hupper := b.upper
  rw [b.sharedBase_eq] at hbase
  rw [AddressSpaces.canonical, Bool.or_eq_true, decide_eq_true_eq, decide_eq_true_eq]
  exact Or.inr (by omega)

theorem Boot.Shared.lt (h : b.Shared va) : va < 2^64 :=
  Nat.lt_trans h.2.1 (by decide)

theorem page_eq (hc : canonical va = true) (hc' : canonical va' = true) (hlt : va < 2^64)
    (hlt' : va' < 2^64) (hp : va % 4096 = 0) (hp' : va' % 4096 = 0)
    (heq : (va >>> 12) % 2^36 = (va' >>> 12) % 2^36) : va = va' := by
  rw [AddressSpaces.canonical, Bool.or_eq_true, decide_eq_true_eq, decide_eq_true_eq] at hc hc'
  rw [Nat.shiftRight_eq_div_pow, Nat.shiftRight_eq_div_pow] at heq
  omega

theorem Boot.Shared.page_eq (h : b.Shared va) (h' : b.Shared va')
    (heq : (va >>> 12) % 2^36 = (va' >>> 12) % 2^36) : va = va' :=
  SharedMappings.page_eq h.canonical h'.canonical h.lt h'.lt h.2.2 h'.2.2 heq

theorem HasFrame.kept (h : HasFrame b ram va f) (hk : Kept ram ram' b.common changed)
    (hv : ¬changed ((va >>> 12) % 2^36)) : HasFrame b ram' va f := by
  obtain ⟨e,he,hentry⟩ := h
  obtain ⟨he',hsame⟩ := hk.pte (va >>> 12) e hv he
  exact ⟨e, he', hsame.trans hentry⟩

theorem pagePresent_iff : pagePresent b ram va = true ↔
    ∃ e, findPte ram 3 b.common (va >>> 12) = some e := by
  unfold pagePresent
  cases hf : findPte ram 3 b.common (va >>> 12) with
  | none => exact ⟨nofun, nofun⟩
  | some e => exact ⟨fun _ => ⟨e, rfl⟩, fun _ => Ownership.findPte_present hf⟩

theorem walk_of_pte {e : Nat × Nat} (hw : WellFormed ram 3 b.common)
    (hf : findPte ram 3 b.common (va >>> 12) = some e) :
    walk ram 3 b.common (va >>> 12) ≠ none := by
  obtain ⟨-,leaf,hwalk,-⟩ := walk_findPte hw (show _ = some (e.1, e.2) from hf)
  rw [hwalk]
  nofun

@[simp] theorem Kernel.goto_self (s : Kernel ν) (t : Nat) (pc : Pc ν) : (s.goto t pc).pc t = pc :=
  update_self ..

/-! Steps that map no page but windows. -/

theorem Core.change (h : Core usable b own s)
    (hl : Layout usable b.common own' s'.ram s'.stock s'.root)
    (ht : Threads b own' s'.made s'.pc)
    (hpage : ∀ f va, own f = .page va → own' f = .page va)
    (hlog : installs s'.log = installs s.log)
    (hwin : ∀ va ∈ windows s.log, va ∈ windows s'.log)
    (hkept : Kept s.ram s'.ram b.common changed)
    (hchanged : ∀ va, b.Shared va → changed ((va >>> 12) % 2^36) → va ∈ windows s'.log) :
    Core usable b own' s' := by
  refine ⟨hl, ht, fun va f hin => ?_, fun va f hin hw => ?_, fun va hs hv => ?_⟩
  · rw [hlog] at hin
    obtain ⟨hown,hshared⟩ := h.owned va f hin
    exact ⟨hpage f va hown, hshared⟩
  · rw [hlog] at hin
    have hshared := (h.owned va f hin).2
    exact (h.mapped va f hin fun hold => hw (hwin va hold)).kept hkept
      fun hc => hw (hchanged va hshared hc)
  · rw [hlog]
    by_cases hc : changed ((va >>> 12) % 2^36)
    · exact Or.inl (hchanged va hs hc)
    · rw [hkept.walk _ hc] at hv
      exact (h.present va hs hv).imp_left (hwin va)

theorem Threads.update {made : Nat} {pcs : Nat → Pc ν} (h : Threads b own made pcs)
    (ht : t < made) (hown : ∀ f t', t' ≠ t → own f = .held t' → own' f = .held t')
    (hframe : ∀ f, pc.frame = some f → own' f = .held t)
    (hplace : ∀ va, pc.page = some va → b.Shared va) :
    Threads b own' made (update pcs t pc) := by
  refine ⟨fun t' ht' => ?_, fun t' f hf => ?_, fun t' va hv => ?_⟩
  · rw [update_of_ne (by omega)]
    exact h.unborn t' ht'
  · by_cases heq : t' = t
    · subst heq
      rw [update_self] at hf
      exact hframe f hf
    · rw [update_of_ne heq] at hf
      exact hown f t' heq (h.held t' f hf)
  · by_cases heq : t' = t
    · subst heq
      rw [update_self] at hv
      exact hplace va hv
    · rw [update_of_ne heq] at hv
      exact h.place t' va hv

theorem Threads.made (h : Threads b own s.made s.pc) (ht : s.pc t ≠ .unborn) : t < s.made :=
  Nat.lt_of_not_le fun hle => ht (h.unborn t hle)

theorem Core.work (h : Core usable b own s) (ht : s.pc t ≠ .unborn)
    (hl : Layout usable b.common own' s'.ram s'.stock s'.root)
    (hp : Passed own own' s.ram s'.ram)
    (hkept : Kept s.ram s'.ram b.common fun _ => False) (hmade : s'.made = s.made)
    (hpc : s'.pc = update s.pc t pc) (hframe : pc.frame = none)
    (hplace : ∀ va, pc.page = some va → b.Shared va) (hlog : installs s'.log = installs s.log)
    (hwin : windows s'.log = windows s.log) : Core usable b own' s' := by
  have hown {f : Nat} {x : Owner} (hx : x.isTable = false) (hs : x ≠ .stock) (hf : own f = x) :
      own' f = x := by
    rw [(hp f (hf ▸ hx) (hf ▸ hs)).1, hf]
  refine h.change hl ?_ (fun f va hf => hown rfl nofun hf) hlog (fun va hv => hwin ▸ hv) hkept
    fun _ _ hc => hc.elim
  rw [hmade, hpc]
  exact h.threads.update (h.threads.made ht) (fun f t' _ hf => hown rfl nofun hf)
    (fun f hf => by rw [hframe] at hf; cases hf) hplace

/-! What the calls do to the tables. -/

theorem ensureSlot_eq (m : State) (slot : Nat) :
    ensureSlot b m slot = openEntry m.1 m.2 b.common slot 3 := by
  unfold ensureSlot openEntry
  split
  · rename_i hp
    rw [(isTable_root hp).2]
    rfl
  · rfl

section Tables
variable {root : Nat → Option Nat} (h : Layout usable b.common own m.1 m.2 root)
include h

theorem ensureSlots_layout {slots : List Nat} (hlt : ∀ slot ∈ slots, slot < 512)
    (hs : slots.foldlM (ensureSlot b) m = some m') :
    ∃ own', Layout usable b.common own' m'.1 m'.2 root ∧ Passed own own' m.1 m'.1 ∧
      Kept m.1 m'.1 b.common fun _ => False := by
  induction slots generalizing m own with
  | nil =>
    cases hs
    exact ⟨own, h, fun _ _ _ => ⟨rfl, rfl⟩, Kept.refl _⟩
  | cons slot slots ih =>
    rw [List.foldlM_cons] at hs
    obtain ⟨m₁,hs₁,hs⟩ := Option.bind_eq_some_iff.mp hs
    rw [ensureSlot_eq] at hs₁
    obtain ⟨own₁,hl₁,hp₁,hk₁,-⟩ := h.openEntry (hlt slot List.mem_cons_self) hs₁
    obtain ⟨own₂,hl₂,hp₂,hk₂⟩ := ih hl₁ (fun x hx => hlt x (List.mem_cons_of_mem _ hx)) hs
    exact ⟨own₂, hl₂, hp₁.trans hp₂, hk₁.trans hk₂⟩

theorem ensureSharedRoots_layout {ready : Bool} (hs : ensureSharedRoots b ready m = some m') :
    ∃ own', Layout usable b.common own' m'.1 m'.2 root ∧ Passed own own' m.1 m'.1 ∧
      Kept m.1 m'.1 b.common fun _ => False := by
  unfold ensureSharedRoots at hs
  split at hs
  · cases hs
    exact ⟨own, h, fun _ _ _ => ⟨rfl, rfl⟩, Kept.refl _⟩
  dsimp only at hs
  split at hs
  · refine ensureSlots_layout h (fun slot hslot => ?_) hs
    have hlast : (sharedLimit >>> 39) &&& 0x1FF = 511 := by decide
    obtain ⟨i,hi,rfl⟩ := List.mem_range'.mp hslot
    omega
  · cases hs

theorem mapMmioPage_layout {cr3 curr : Nat} (hcr : cr3 = b.common ∨ ∃ t, root t = some cr3)
    (hs : mapMmioPage b cr3 m curr = some m') :
    canonical (wrap (curr+b.hhdmOffset)) = true ∧
      ∃ own', Layout usable b.common own' m'.1 m'.2 root ∧ Passed own own' m.1 m'.1 ∧
        Kept m.1 m'.1 b.common (· = (wrap (curr+b.hhdmOffset) >>> 12) % 2^36) := by
  unfold mapMmioPage at hs
  dsimp only at hs
  split at hs
  · rename_i hcan
    refine ⟨hcan, ?_⟩
    split at hs
    · cases hs
    · rename_i ram pool hm
      obtain ⟨own₁,hl₁,hp₁,hk₁,-⟩ := h.map hm
      split at hs
      · rename_i hne
        obtain ⟨t,hroot⟩ := hcr.resolve_left hne
        obtain ⟨own₂,hl₂,hp₂,hk₂⟩ := hl₁.mapRoot hroot hs
        exact ⟨own₂, hl₂, hp₁.trans hp₂, hk₁.trans hk₂⟩
      · cases hs
        exact ⟨own₁, hl₁, hp₁, hk₁⟩
  · cases hs

theorem mapMmioPages_layout {cr3 : Nat} {pages : List Nat}
    (hcr : cr3 = b.common ∨ ∃ t, root t = some cr3)
    (hs : pages.foldlM (mapMmioPage b cr3) m = some m') :
    ∃ own', Layout usable b.common own' m'.1 m'.2 root ∧ Passed own own' m.1 m'.1 ∧
      Kept m.1 m'.1 b.common fun v => ∃ curr ∈ pages,
        canonical (wrap (curr+b.hhdmOffset)) = true ∧
          v = (wrap (curr+b.hhdmOffset) >>> 12) % 2^36 := by
  induction pages generalizing m own with
  | nil =>
    cases hs
    exact ⟨own, h, fun _ _ _ => ⟨rfl, rfl⟩, Kept.refl _⟩
  | cons curr pages ih =>
    rw [List.foldlM_cons] at hs
    obtain ⟨m₁,hs₁,hs⟩ := Option.bind_eq_some_iff.mp hs
    obtain ⟨hcan,own₁,hl₁,hp₁,hk₁⟩ := mapMmioPage_layout h hcr hs₁
    obtain ⟨own₂,hl₂,hp₂,hk₂⟩ := ih hl₁ hs
    refine ⟨own₂, hl₂, hp₁.trans hp₂, (hk₁.mono fun v hv => ?_).trans (hk₂.mono fun v hv => ?_)⟩
    · exact ⟨curr, List.mem_cons_self, hcan, hv⟩
    · obtain ⟨curr',hmem,hv⟩ := hv
      exact ⟨curr', List.mem_cons_of_mem _ hmem, hv⟩

end Tables

theorem mmioPages_aligned {pa length curr : Nat} (hc : curr ∈ mmioPages pa length) :
    curr % 4096 = 0 := by
  unfold mmioPages pagesOf at hc
  dsimp only at hc
  obtain ⟨i,-,rfl⟩ := List.mem_range'.mp hc
  rw [Vmes.pageSize]
  omega

/-! The steps of a handler. -/

section Handler
variable (h : Core usable b own s)
include h

theorem Core.page (hp : (s.pc t).page = some va) : b.Shared va ∧ t < s.made := by
  refine ⟨h.threads.place t va hp, h.threads.made fun heq => ?_⟩
  rw [heq] at hp
  cases hp

theorem Core.alloc {vme : Vme ν} {frame : Nat} {pool : List Nat}
    (hpc : s.pc t = .allocating vme va) (hs : s.stock = frame :: pool) :
    Core usable b (assign own [frame] (.held t)) (((s.hold (zeroFrame s.ram frame, pool)).note
      (.alloc frame)).goto t (.loading vme va frame)) := by
  have hown : own frame = .stock := h.layout.stocked frame (hs ▸ List.mem_cons_self)
  obtain ⟨hshared,ht⟩ := h.page (t := t) (by rw [hpc]; rfl)
  obtain ⟨hl,hkept,hother⟩ := h.layout.alloc (x := .held t) hs
  have hkeep {f : Nat} {x : Owner} (hx : x ≠ .stock) (hf : own f = x) :
      assign own [frame] (.held t) f = x := by
    rw [(hother f fun heq => hx (by rw [← hf, heq, hown])).1, hf]
  refine h.change hl (h.threads.update ht (fun f t' _ hf => hkeep nofun hf) (fun f hf => ?_)
    fun va' hv => ?_) (fun f va hf => hkeep nofun hf) rfl (fun _ hw => hw) hkept
      fun _ _ hc => hc.elim
  · cases hf
    exact assign_taken (List.mem_singleton_self frame) _
  · cases hv
    exact hshared

theorem Core.load {vme : Vme ν} {frame : Nat} {content : Nat → Nat}
    (hpc : s.pc t = .loading vme va frame) :
    Core usable b own ({ s with ram := update s.ram frame content }.goto t
      (.mapping vme va frame)) := by
  have hown : own frame = .held t := h.threads.held t frame (by rw [hpc]; rfl)
  obtain ⟨hshared,ht⟩ := h.page (t := t) (by rw [hpc]; rfl)
  obtain ⟨hl,hkept⟩ : Layout usable b.common own (update s.ram frame content) s.stock s.root ∧ _ :=
    h.layout.store (by rw [hown]; rfl)
  refine h.change hl (h.threads.update ht (fun f t' _ hf => hf) (fun f hf => ?_) fun va' hv => ?_)
    (fun f va hf => hf) rfl (fun _ hw => hw) hkept fun _ _ hc => hc.elim
  · cases hf
    exact hown
  · cases hv
    exact hshared

theorem Core.free {vme : Vme ν} {frame : Nat} (hpc : s.pc t = .mapping vme va frame) :
    Core usable b (assign own [frame] .stock)
      (((s.hold (Teardown.free usable link (s.ram, s.stock) frame)).note (.free frame)).goto t
        .user) := by
  have hown : own frame = .held t := h.threads.held t frame (by rw [hpc]; rfl)
  obtain ⟨hshared,ht⟩ := h.page (t := t) (by rw [hpc]; rfl)
  obtain ⟨heq,hl,hkept⟩ : Teardown.free usable link (s.ram, s.stock) frame = _ ∧ _ :=
    h.layout.release (by rw [hown]; rfl) (by rw [hown]; rfl) (by rw [hown]; nofun)
  have hkeep {f : Nat} {x : Owner} (hx : x ≠ .held t) (hf : own f = x) :
      assign own [frame] .stock f = x := by
    rw [assign_other, hf]
    intro hin
    rw [List.mem_singleton.mp hin, hown] at hf
    exact hx hf.symm
  rw [heq]
  refine h.change hl (h.threads.update ht (fun f t' hne hf => hkeep (fun h => hne ?_) hf) nofun nofun)
    (fun f va hf => hkeep nofun hf) rfl (fun _ hw => hw) hkept fun _ _ hc => hc.elim
  exact Owner.held.inj h

theorem Core.install {vme : Vme ν} {frame : Nat} (hpc : s.pc t = .mapping vme va frame)
    (hnone : pagePresent b s.ram va = false)
    (hm : map s.ram s.stock b.common 3 (va >>> 12) frame true true = some m) :
    ∃ own', Core usable b own' (((s.hold m).note (.install va frame)).goto t .user) ∧
      (∀ f, own f ≠ .stock → (own f).isTable = false → m.1 f = s.ram f) ∧
      Kept s.ram m.1 b.common (· = (va >>> 12) % 2^36) ∧ HasFrame b m.1 va frame := by
  have hown : own frame = .held t := h.threads.held t frame (by rw [hpc]; rfl)
  obtain ⟨hshared,ht⟩ := h.page (t := t) (by rw [hpc]; rfl)
  obtain ⟨own₁,hl₁,hp₁,hkept,e,he,hentry⟩ := h.layout.map hm
  have hown₁ {f : Nat} {x : Owner} (hx : x.isTable = false) (hs : x ≠ .stock) (hf : own f = x) :
      own₁ f = x := by
    rw [(hp₁ f (hf ▸ hx) (hf ▸ hs)).1, hf]
  have hframe : own₁ frame = .held t := hown₁ rfl nofun hown
  have hl := hl₁.give (x := .page va) (show (own₁ frame).isTable = false by rw [hframe]; rfl)
    (by rw [hframe]; rfl) (by rw [hframe]; nofun)
  have hkeep {f : Nat} {x : Owner} (hx : x.isTable = false) (hs : x ≠ .stock) (hne : x ≠ .held t)
      (hf : own f = x) : assign own₁ [frame] (.page va) f = x := by
    rw [assign_other, hown₁ hx hs hf]
    intro hin
    rw [List.mem_singleton.mp hin, hown] at hf
    exact hne hf.symm
  have hhas : HasFrame b m.1 va frame := ⟨e, he, hentry⟩
  refine ⟨assign own₁ [frame] (.page va), ⟨hl, ?_, fun va' f hin => ?_, fun va' f hin hw => ?_,
    fun va' hs hv => ?_⟩, fun f hs hf => (hp₁ f hf hs).2, hkept, hhas⟩
  · exact h.threads.update ht
      (fun f t' hne hf => hkeep rfl nofun (fun h => hne (Owner.held.inj h)) hf) nofun nofun
  · obtain heq | hin := List.mem_cons.mp (show (va', f) ∈ (va, frame) :: installs s.log from hin)
    · cases heq
      exact ⟨assign_taken (List.mem_singleton_self frame) _, hshared⟩
    · obtain ⟨ho,hs⟩ := h.owned va' f hin
      exact ⟨hkeep rfl nofun nofun ho, hs⟩
  · obtain heq | hin := List.mem_cons.mp (show (va', f) ∈ (va, frame) :: installs s.log from hin)
    · cases heq
      exact hhas
    · have hold := h.mapped va' f hin hw
      refine hold.kept hkept fun heq => ?_
      rw [(h.owned va' f hin).2.page_eq hshared heq] at hold
      obtain ⟨e,he,-⟩ := hold
      rw [pagePresent_iff.mpr ⟨e, he⟩] at hnone
      cases hnone
  · by_cases heq : (va' >>> 12) % 2^36 = (va >>> 12) % 2^36
    · rw [hs.page_eq hshared heq]
      exact Or.inr ⟨frame, List.mem_cons_self⟩
    · have hv' : walk m.1 3 b.common (va' >>> 12) ≠ none := hv
      rw [hkept.walk _ heq] at hv'
      exact (h.present va' hs hv').imp_right fun ⟨f,hin⟩ => ⟨f, List.mem_cons_of_mem _ hin⟩

theorem Core.store (i value : Nat) {e : Nat × Nat} (hs : b.Shared va) (hw : va ∉ windows s.log)
    (he : findPte s.ram 3 b.common (va >>> 12) = some e) :
    ∃ f, (va, f) ∈ installs s.log ∧ entryPpn (s.ram e.1 e.2) = f ∧
      Core usable b own ({ s with ram := storeWord s.ram f i value }.note (.store va i value)) := by
  obtain ⟨f,hin⟩ := (h.present va hs (walk_of_pte h.layout.wellFormed he)).resolve_left hw
  obtain ⟨e',he',hentry⟩ := h.mapped va f hin hw
  obtain rfl : e = e' := Option.some.inj (he.symm.trans he')
  have hown := (h.owned va f hin).1
  have hsmall : f < 2^36 := (h.layout.good f (by rw [hown]; rfl)).lt
  obtain ⟨hl,hkept⟩ : Layout usable b.common own (storeWord s.ram f i value) s.stock s.root ∧ _ :=
    h.layout.store (by rw [hown]; rfl)
  refine ⟨f, hin, by rw [hentry, entryPpn_makeEntry hsmall], h.change hl h.threads
    (fun _ _ hf => hf) rfl (fun _ hv => hv) hkept fun _ _ hc => hc.elim⟩

end Handler

theorem caller_root (s : Kernel ν) (t : Option Nat) :
    (t.bind s.root).getD b.common = b.common ∨
      ∃ t', s.root t' = some ((t.bind s.root).getD b.common) := by
  cases ht : t.bind s.root with
  | none => exact Or.inl rfl
  | some r =>
    obtain ⟨t',-,hr⟩ := Option.bind_eq_some_iff.mp ht
    exact Or.inr ⟨t', hr⟩

theorem Core.mapMmio (h : Core usable b own s) {cr3 pa length : Nat}
    (hcr : cr3 = b.common ∨ ∃ t, s.root t = some cr3)
    (hm : mapMmio b cr3 pa length (s.ram, s.stock) = some m) :
    ∃ own', Core usable b own' { s.hold m with log := ((mmioPages pa length).map fun curr =>
        Event.window (wrap (curr+b.hhdmOffset))) ++ s.log } ∧
      ∀ f, own f ≠ .stock → (own f).isTable = false → m.1 f = s.ram f := by
  unfold SharedMappings.mapMmio at hm
  split at hm
  · cases hm
  rename_i m₁ hpages
  split at hm
  · cases hm
    obtain ⟨own',hl,hp,hkept⟩ := mapMmioPages_layout h.layout hcr hpages
    have hown {f : Nat} {x : Owner} (hx : x.isTable = false) (hs : x ≠ .stock) (hf : own f = x) :
        own' f = x := by
      rw [(hp f (hf ▸ hx) (hf ▸ hs)).1, hf]
    refine ⟨own', h.change hl ⟨h.threads.unborn, fun t f hf => hown rfl nofun (h.threads.held t f hf),
      h.threads.place⟩ (fun f va hf => hown rfl nofun hf) ?_ (fun va hv => ?_) hkept
      fun va hs hc => ?_, fun f hs hf => (hp f hf hs).2⟩
    · change installs (_ ++ s.log) = _
      rw [installs, List.filterMap_append, List.filterMap_eq_nil_iff.mpr fun e he => ?_]
      · rfl
      · obtain ⟨curr,-,rfl⟩ := List.mem_map.mp he
        rfl
    · change va ∈ windows (_ ++ s.log)
      rw [windows, List.filterMap_append]
      exact List.mem_append_right _ hv
    · obtain ⟨curr,hmem,hcan,heq⟩ := hc
      have haligned : wrap (curr+b.hhdmOffset) % 4096 = 0 := by
        have hcurr := mmioPages_aligned hmem
        have hbase := b.aligned
        rw [wrap]
        omega
      have hlt : wrap (curr+b.hhdmOffset) < 2^64 := Nat.mod_lt _ (by decide)
      rw [page_eq hs.canonical hcan hs.lt hlt hs.2.2 haligned heq]
      change _ ∈ windows (_ ++ s.log)
      rw [windows, List.filterMap_append]
      refine List.mem_append_left _ (List.mem_filterMap.mpr
        ⟨_, List.mem_map.mpr ⟨curr, hmem, rfl⟩, ?_⟩)
      rfl
  · cases hm

/-! The step of a thread. -/

/-- The pages, and the frames of the handlers of other threads, are as they were. -/
def Untouched (own : Nat → Owner) (t : Nat) (ram ram' : Ram) : Prop :=
  ∀ f, (own f).isTable = false → own f ≠ .stock → own f ≠ .held t → ram' f = ram f

theorem Untouched.of_passed (h : Passed own own' ram ram') (t : Nat) : Untouched own t ram ram' :=
  fun f hf hs _ => (h f hf hs).2

theorem Untouched.of_frame (h : ∀ g, g ≠ f → ram' g = ram g)
    (hf : own f = .stock ∨ own f = .held t) : Untouched own t ram ram' := by
  refine fun g _ hs hg => h g ?_
  rintro rfl
  exact hf.elim hs hg

theorem Core.moveOn (h : Core usable b own s) (ht : s.pc t ≠ .unborn) (hram : s'.ram = s.ram)
    (hstock : s'.stock = s.stock) (hroot : s'.root = s.root) (hmade : s'.made = s.made)
    (hpc : s'.pc = update s.pc t pc) (hframe : pc.frame = none)
    (hplace : ∀ va, pc.page = some va → b.Shared va) (hlog : installs s'.log = installs s.log)
    (hwin : windows s'.log = windows s.log) :
    ∃ own', Core usable b own' s' ∧ Untouched own t s.ram s'.ram := by
  refine ⟨own, h.work ht ?_ ?_ ?_ hmade hpc hframe hplace hlog hwin, ?_⟩
  · rw [hram, hstock, hroot]
    exact h.layout
  · rw [hram]
    exact fun _ _ _ => ⟨rfl, rfl⟩
  · rw [hram]
    exact Kept.refl _
  · rw [hram]
    exact fun _ _ _ _ => rfl

theorem Core.run (h : Core usable b own s) (hs : s.run io usable link b t = some s') :
    ∃ own', Core usable b own' s' ∧ Untouched own t s.ram s'.ram := by
  unfold Kernel.run at hs
  cases hpc : s.pc t with
  | unborn | user | gone =>
    rw [hpc] at hs
    cases hs
  | created =>
    simp only [hpc] at hs
    obtain ⟨m,hm,rfl⟩ := Option.map_eq_some_iff.mp hs
    obtain ⟨own',hl,hp,hk⟩ := ensureSharedRoots_layout h.layout hm
    exact ⟨own', h.work (by rw [hpc]; nofun) hl hp hk rfl rfl rfl nofun rfl rfl, .of_passed hp t⟩
  | copying =>
    simp only [hpc] at hs
    cases hstock : s.stock with
    | nil =>
      rw [hstock] at hs
      cases hs
    | cons c pool =>
      rw [hstock] at hs
      cases hs
      obtain ⟨hl,hp,hk⟩ := h.layout.start (t := t) hstock
      exact ⟨_, h.work (by rw [hpc]; nofun) hl hp hk rfl rfl rfl nofun rfl rfl, .of_passed hp t⟩
  | counting =>
    simp only [hpc] at hs
    cases hs
    exact h.moveOn (by rw [hpc]; nofun) rfl rfl rfl rfl rfl rfl nofun rfl rfl
  | checking va =>
    simp only [hpc] at hs
    split at hs
    · cases hs
    split at hs
    · cases hs
      exact h.moveOn (by rw [hpc]; nofun) rfl rfl rfl rfl rfl rfl nofun rfl rfl
    · cases hs
      refine h.moveOn (by rw [hpc]; nofun) rfl rfl rfl rfl rfl rfl (fun va' hv => ?_) rfl rfl
      cases hv
      exact (h.page (t := t) (by rw [hpc]; rfl)).1
  | allocating vme va =>
    simp only [hpc] at hs
    cases hstock : s.stock with
    | nil =>
      rw [hstock] at hs
      cases hs
    | cons frame pool =>
      rw [hstock] at hs
      cases hs
      exact ⟨_, h.alloc hpc hstock, .of_frame (fun g hg => update_of_ne hg _ _)
        (Or.inl (h.layout.stocked frame (hstock ▸ List.mem_cons_self)))⟩
  | loading vme va frame =>
    simp only [hpc] at hs
    obtain ⟨content,-,rfl⟩ := Option.map_eq_some_iff.mp hs
    exact ⟨own, h.load hpc, .of_frame (fun g hg => update_of_ne hg _ _)
      (Or.inr (h.threads.held t frame (by rw [hpc]; rfl)))⟩
  | mapping vme va frame =>
    simp only [hpc] at hs
    split at hs
    · cases hs
      exact ⟨_, h.free hpc, .of_frame (fun g hg => free_other hg)
        (Or.inr (h.threads.held t frame (by rw [hpc]; rfl)))⟩
    rename_i hnone
    split at hs
    · obtain ⟨m,hm,rfl⟩ := Option.map_eq_some_iff.mp hs
      obtain ⟨own',hcore,hsame,-⟩ := h.install hpc (by simpa using hnone) hm
      exact ⟨own', hcore, fun f hf hs _ => hsame f hs hf⟩
    · cases hs
  | closing =>
    simp only [hpc] at hs
    cases hs
    have hidle : (if s.active-1 = 0 then Pc.last else Pc.freeing : Pc ν).frame = none ∧
        (if s.active-1 = 0 then Pc.last else Pc.freeing : Pc ν).page = none := by
      split <;> exact ⟨rfl, rfl⟩
    refine h.moveOn (by rw [hpc]; nofun) rfl rfl rfl rfl rfl hidle.1 (fun va hv => ?_) rfl rfl
    rw [hidle.2] at hv
    cases hv
  | last =>
    simp only [hpc] at hs
    cases hs
    exact h.moveOn (by rw [hpc]; nofun) rfl rfl rfl rfl rfl rfl nofun rfl rfl
  | freeing =>
    simp only [hpc] at hs
    split at hs
    · cases hs
    · rename_i r hr
      cases hs
      obtain ⟨hl,hp,hk⟩ := h.layout.finish hr link
      exact ⟨_, h.work (by rw [hpc]; nofun) hl hp hk rfl rfl rfl nofun rfl rfl, .of_passed hp t⟩

/-! What the calls of a thread do. -/

theorem sharedMmap_cases {vmes : List (Vme ν)} {hhdmOffset length offset : Nat} {flags : Int32}
    {file : Option ν} (hf : flags &&& 1 ≠ 0) :
    (Mappings.mk [] vmes).mmap hhdmOffset length flags file offset = (none, ⟨[], vmes⟩) ∨
    ∃ va vmes', (Mappings.mk [] vmes).mmap hhdmOffset length flags file offset =
        (some va, ⟨[], vmes'⟩) ∧ offset % 4096 = 0 ∧
      insertFrom sharedLimit (pageAlignUp length) file offset true (sharedBase hhdmOffset) vmes =
        some (va, vmes') := by
  unfold Mappings.mmap
  split
  · exact Or.inl rfl
  split
  · exact Or.inl rfl
  rename_i hoffset
  dsimp only
  split
  · exact Or.inl rfl
  split
  · rename_i va vmes' hs
    exact Or.inr ⟨va, vmes', rfl, not_not.mp hoffset, hs⟩
  · exact Or.inl rfl

theorem mmap_cases {length offset : UInt64} {flags : Int32} {file : Option ν}
    (hs : s.call b (.mmap t length flags file offset) = some s') : s' = s ∨
    ∃ start vmes, offset.toNat % 4096 = 0 ∧
      insertFrom sharedLimit (pageAlignUp length.toNat) file offset.toNat true
        (sharedBase b.hhdmOffset) s.sharedVmes = some (start, vmes) ∧
      s' = { s with sharedVmes := vmes }.note (.region start (pageAlignUp length.toNat)) := by
  simp only [Kernel.call] at hs
  split at hs
  · rename_i hf
    obtain heq | ⟨start,vmes,heq,ho,hins⟩ := sharedMmap_cases hf
    · rw [heq] at hs
      cases hs
      exact Or.inl rfl
    · rw [heq] at hs
      cases hs
      exact Or.inr ⟨start, vmes, ho, hins, rfl⟩
  · cases hs

theorem fault_eq {cr2 errorCode : UInt64} (hs : s.call b (.fault t cr2 errorCode) = some s') :
    b.Shared (cr2.toNat / 4096 * 4096) ∧ s' = s.goto t (.checking (cr2.toNat / 4096 * 4096)) := by
  simp only [Kernel.call] at hs
  split at hs
  · cases hs
  split at hs
  · rename_i hrange
    cases hs
    exact ⟨⟨hrange.1, hrange.2, Nat.mul_mod_left ..⟩, rfl⟩
  · cases hs

theorem store_eq {i value : Nat} (hs : s.call b (.store t va i value) = some s') :
    b.Shared va ∧ ∃ e, findPte s.ram 3 b.common (va >>> 12) = some e ∧
      s' = { s with ram := storeWord s.ram (entryPpn (s.ram e.1 e.2)) i value }.note
        (.store va i value) := by
  simp only [Kernel.call] at hs
  split at hs
  · rename_i hrange
    obtain ⟨e,he,rfl⟩ := Option.map_eq_some_iff.mp hs
    exact ⟨⟨hrange.1, hrange.2.1, hrange.2.2.1⟩, e, he, rfl⟩
  · cases hs

theorem Core.list (h : Core usable b own s) {vmes : List (Vme ν)} {log : List Event}
    (hlog : installs log = installs s.log) (hwin : windows log = windows s.log) :
    Core usable b own { s with sharedVmes := vmes, log := log } :=
  h.change h.layout h.threads (fun _ _ hf => hf) hlog (fun _ hv => hwin ▸ hv)
    (Kept.refl fun _ => False) fun _ _ hc => hc.elim

theorem Core.create (h : Core usable b own s) :
    Core usable b own { s.goto s.made .created with made := s.made+1 } := by
  have hmore : Threads b own (s.made+1) s.pc := by
    refine ⟨fun t ht => h.threads.unborn t ?_, h.threads.held, h.threads.place⟩
    exact Nat.le_of_succ_le ht
  exact h.change h.layout (hmore.update (Nat.lt_succ_self _) (fun _ _ _ hf => hf) nofun nofun)
    (fun _ _ hf => hf) rfl (fun _ hv => hv) (Kept.refl fun _ => False) fun _ _ hc => hc.elim

theorem isUser_iff : pc.isUser = true ↔ pc = .user := by
  cases pc <;> simp [Pc.isUser]

theorem Core.step (h : Core usable b own s) {a : Action ν}
    (hstore : ∀ t va i value, a = .store t va i value → va ∉ windows s.log)
    (hs : s.step io usable link b a = some s') : ∃ own', Core usable b own' s' := by
  unfold Kernel.step at hs
  split at hs
  swap
  · cases hs
  rename_i hcaller
  have huser {t : Nat} (ht : a.caller = some t) : s.pc t ≠ .unborn ∧ s.pc t = .user := by
    rw [ht, Option.all_some, isUser_iff] at hcaller
    rw [hcaller]
    exact ⟨nofun, rfl⟩
  have hgo {t : Nat} {pc : Pc ν} (ht : a.caller = some t) (hframe : pc.frame = none)
      (hplace : ∀ va, pc.page = some va → b.Shared va) : Core usable b own (s.goto t pc) :=
    h.work (huser ht).1 h.layout (fun _ _ _ => ⟨rfl, rfl⟩) (Kept.refl _) rfl rfl hframe hplace rfl rfl
  cases a with
  | run t =>
    obtain ⟨own',hcore,-⟩ := h.run hs
    exact ⟨own', hcore⟩
  | mapMmio t pa length =>
    obtain ⟨m,hm,rfl⟩ := Option.map_eq_some_iff.mp hs
    obtain ⟨own',hcore,-⟩ := h.mapMmio (caller_root s t) hm
    exact ⟨own', hcore⟩
  | create t =>
    cases hs
    exact ⟨own, h.create⟩
  | exit t =>
    cases hs
    exact ⟨own, hgo rfl rfl nofun⟩
  | mmap t length flags file offset =>
    obtain rfl | ⟨start,vmes,-,-,rfl⟩ := mmap_cases hs
    · exact ⟨own, h⟩
    · exact ⟨own, h.list rfl rfl⟩
  | fault t cr2 errorCode =>
    obtain ⟨hshared,rfl⟩ := fault_eq hs
    refine ⟨own, hgo rfl rfl fun va hv => ?_⟩
    cases hv
    exact hshared
  | store t va i value =>
    obtain ⟨hshared,e,he,rfl⟩ := store_eq hs
    obtain ⟨f,-,hf,hcore⟩ := h.store i value hshared (hstore t va i value rfl) he
    exact ⟨own, by rw [hf]; exact hcore⟩

theorem run_log (hs : s.run io usable link b t = some s') :
    s'.log = s.log ∨ ∃ e, s'.log = e :: s.log := by
  unfold Kernel.run at hs
  cases hpc : s.pc t with
  | unborn | user | gone =>
    rw [hpc] at hs
    cases hs
  | created | loading =>
    simp only [hpc] at hs
    obtain ⟨m,-,rfl⟩ := Option.map_eq_some_iff.mp hs
    exact Or.inl rfl
  | copying | freeing =>
    simp only [hpc] at hs
    split at hs
    · cases hs
    · cases hs
      exact Or.inl rfl
  | counting | closing =>
    simp only [hpc] at hs
    cases hs
    exact Or.inl rfl
  | last =>
    simp only [hpc] at hs
    cases hs
    exact Or.inr ⟨_, rfl⟩
  | checking va =>
    simp only [hpc] at hs
    split at hs
    · cases hs
    split at hs
    · cases hs
      exact Or.inl rfl
    · cases hs
      exact Or.inr ⟨_, rfl⟩
  | allocating vme va =>
    simp only [hpc] at hs
    obtain ⟨m,-,rfl⟩ := Option.map_eq_some_iff.mp hs
    exact Or.inr ⟨_, rfl⟩
  | mapping vme va frame =>
    simp only [hpc] at hs
    split at hs
    · cases hs
      exact Or.inr ⟨_, rfl⟩
    split at hs
    · obtain ⟨m,-,rfl⟩ := Option.map_eq_some_iff.mp hs
      exact Or.inr ⟨_, rfl⟩
    · cases hs

theorem step_log {a : Action ν} (hs : s.step io usable link b a = some s') :
    ∃ es, s'.log = es ++ s.log := by
  have hsame : ∃ es, s.log = es ++ s.log := ⟨[], rfl⟩
  unfold Kernel.step at hs
  split at hs
  swap
  · cases hs
  cases a with
  | run t =>
    obtain hlog | ⟨e,hlog⟩ := run_log hs
    · exact ⟨[], hlog⟩
    · exact ⟨[e], hlog⟩
  | mapMmio t pa length =>
    obtain ⟨m,-,rfl⟩ := Option.map_eq_some_iff.mp hs
    exact ⟨_, rfl⟩
  | create t | exit t =>
    cases hs
    exact hsame
  | mmap t length flags file offset =>
    obtain rfl | ⟨start,vmes,-,-,rfl⟩ := mmap_cases hs
    · exact hsame
    · exact ⟨[_], rfl⟩
  | fault t cr2 errorCode =>
    obtain ⟨-,rfl⟩ := fault_eq hs
    exact hsame
  | store t va i value =>
    obtain ⟨-,e,-,rfl⟩ := store_eq hs
    exact ⟨[_], rfl⟩

theorem core_boot {ram : Ram} {stock : List Nat} (h : BootOk usable b ram stock) :
    ∃ own, Core usable b own (Kernel.boot ram stock : Kernel ν) := by
  classical
  refine ⟨fun f => if f ∈ stock then .stock else if InTree ram 3 b.common f then .common else .other,
    ⟨h.wellFormed, fun f hf => ?_, fun f hf => if_pos hf, h.nodup, fun f hf => ?_, nofun, nofun⟩,
    ⟨fun t ht => ?_, fun t f hf => ?_, fun t va hv => ?_⟩, nofun, nofun, fun va hs hv => ?_⟩
  · rw [if_neg fun hin => h.apart f hin hf]
    exact if_pos hf
  · by_cases hin : f ∈ stock
    · exact h.good f hin
    · rw [if_neg hin] at hf
      split at hf <;> cases hf
  · exact if_neg (show ¬t = 0 from Nat.ne_of_gt ht)
  · rw [Kernel.boot] at hf
    dsimp only at hf
    split at hf <;> cases hf
  · rw [Kernel.boot] at hv
    dsimp only at hv
    split at hv <;> cases hv
  · exact absurd (h.clear va hs.1 hs.2.1) hv

/-- The shared range is in one slot of the root, which has an empty table. -/
def smallBoot : Boot where
  hhdmOffset := 0xFFFFFF0000000000
  upper := by decide
  room := by decide
  aligned := by decide
  common := 1

def smallRam : Ram := fun f i => if f = 1 ∧ i = 510 then makeEntry 2 true true else 0

def smallStock : List Nat := [3, 4, 5, 6, 7, 8, 9, 10, 11, 12]

theorem smallBoot_ok : BootOk (fun _ => true) smallBoot smallRam smallStock := by
  have hchild (i : Nat) : smallRam 2 i = 0 := rfl
  have hslot : smallRam 1 510 = makeEntry 2 true true := rfl
  have hppn : entryPpn (makeEntry 2 true true) = 2 := by decide
  have haddr : entryAddr (makeEntry 2 true true) / pageSize = 2 := by decide
  have hzero {i : Nat} (hi : i ≠ 510) : smallRam 1 i = 0 := if_neg fun h => hi h.2
  have honly {i : Nat} (hp : present (smallRam 1 i) = true) : i = 510 := by
    by_contra h
    rw [hzero h] at hp
    cases hp
  have hempty : (2 : Nat) ≠ 0 → ∀ i < 512, ¬IsTable 2 (smallRam 2 i) := by
    intro _ i _ ht
    rw [hchild] at ht
    cases ht.1
  have htree {f : Nat} (hf : InTree smallRam 3 1 f) : f = 1 ∨ f = 2 := by
    obtain hf | ⟨i,-,ht,hf⟩ := hf
    · exact Or.inl hf
    · obtain rfl := honly ht.1
      rw [hslot, hppn] at hf
      exact Or.inr (inTree_leaves hempty hf)
  refine ⟨fun i _ => ⟨fun hp hl => ?_, fun ht => ?_⟩, by decide, fun f hf hin => ?_,
    fun f hf => ?_, fun va _ _ => ?_⟩
  · obtain rfl := honly hp
    exact absurd hl (by decide)
  · obtain rfl := honly ht.1
    change entryAddr (smallRam 1 510) / pageSize = _ ∧ WellFormed _ _ (entryPpn (smallRam 1 510)) ∧
      ¬InTree _ _ (entryPpn (smallRam 1 510)) 1 ∧ _
    rw [hslot, hppn]
    refine ⟨haddr, wellFormed_leaves hempty fun i _ hp => ?_,
      fun hin => absurd (inTree_leaves hempty hin) (by decide), fun j _ hj htj => ?_⟩
    · rw [hchild] at hp
      cases hp
    · exact absurd (honly htj.1) hj
  · obtain rfl | rfl := htree hin
    · exact absurd hf (by decide)
    · exact absurd hf (by decide)
  · have hall : ∀ f ∈ smallStock, f ≠ 0 ∧ ppnInConfiguredPhys f = true := by decide
    exact ⟨(hall f hf).1, rfl, (hall f hf).2⟩
  · change walk smallRam 3 1 (va >>> 12) = none
    rw [walk]
    by_cases hp : present (smallRam 1 (tableIndex (va >>> 12) (2+1))) = true
    · rw [honly hp, hslot, haddr, walk_absent fun i _ => present_zero]
      rfl
    · rw [if_pos (by simpa using hp)]

abbrev smallMachine (ν : Type*) (io : ν → BlockIo) : Machine (Kernel ν) (Action ν) :=
  sharedMachine io (fun _ => true) (fun _ => 0) smallBoot

theorem smallMachine_reachable {ν : Type*} (io : ν → BlockIo) (C : Kernel ν → Action ν → Prop)
    (as : List (Action ν))
    (hc : (smallMachine ν io).Allowed C (Kernel.boot smallRam smallStock) as) :
    ((smallMachine ν io).under C).Reachable
      ((smallMachine ν io).run (Kernel.boot smallRam smallStock) as) :=
  Machine.reachable_run (.init ⟨smallRam, smallStock, smallBoot_ok, rfl⟩) hc

end NetKernel.SharedMappings
