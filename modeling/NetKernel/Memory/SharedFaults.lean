import NetKernel.Memory.SharedInvariant

/-! Faults of any number of threads on pages of shared regions: what a page holds, and what
becomes of the frames that the handlers allocate. -/
namespace NetKernel.SharedMappings
open Function Runs PageTables Teardown
open Blocks (BlockIo littleEndian)
open FlatMemory (fetch fetch_eq_some fetch_eq_none)
open Frames (Ram)
open Heaps (wrap sub64)
open Vmes (Vme Mappings Mapped Packed endOf findVme pageAlignUp sharedBase sharedLimit)
open Territories

variable {ν : Type*}

/-! What `load_page` leaves. -/

def pageByte (content : Nat → Nat) (j : Nat) : Nat := content (j / 8) / 256^(j % 8) % 256

/-- The byte that a region has at an address when nothing was stored: the byte of the file
there, and zero where there is none. -/
def initialByte (io : ν → BlockIo) (vme : Vme ν) (a : Nat) : UInt8 :=
  match vme.node with
  | none => 0
  | some node =>
    let i := wrap (vme.offset+(a-vme.start))
    if i < (io node).sizeInBytes then ((io node).byteAt i).getD 0 else 0

/-- The region starts and ends at pages, and so does the part of the file behind it. -/
structure RegionOk (vme : Vme ν) : Prop where
  start : vme.start % 4096 = 0
  finish : vme.finish % 4096 = 0
  offset : vme.offset % 4096 = 0
  below : vme.finish < 2^64

theorem littleEndian_digit (xs : List UInt8) (k : Nat) :
    littleEndian xs / 256^k % 256 = (xs[k]?.getD 0).toNat := by
  induction xs generalizing k with
  | nil => simp [littleEndian]
  | cons x xs ih =>
    have hx := x.toNat_lt
    have hstep : littleEndian (x :: xs) = x.toNat+256*littleEndian xs := rfl
    cases k with
    | zero =>
      rw [hstep, Nat.pow_zero, Nat.div_one, List.getElem?_cons_zero, Option.getD_some]
      omega
    | succ k =>
      have hdiv : (x.toNat+256*littleEndian xs) / 256 = littleEndian xs := by omega
      rw [hstep, Nat.pow_succ', ← Nat.div_div_eq_div_mul, hdiv, ih, List.getElem?_cons_succ]

theorem pageByte_words (xs : List UInt8) (j : Nat) :
    pageByte (pageWords xs) j = (xs[j]?.getD 0).toNat := by
  have hlt := Nat.mod_lt j (show 0 < 8 by decide)
  rw [pageByte, pageWords, littleEndian_digit, List.getElem?_take_of_lt hlt, List.getElem?_drop,
    Nat.div_add_mod]

/-- `load_page` of a file reads the bytes from the page's place in it on, as many as there are. -/
theorem loadPage_eq {io : ν → BlockIo} {vme : Vme ν} {va : Nat} {node : ν} (h : RegionOk vme)
    (hin : vme.start ≤ va ∧ va < vme.finish) (hva : va % 4096 = 0) (hn : vme.node = some node) :
    loadPage io vme va =
      if (io node).sizeInBytes ≤ wrap (vme.offset+(va-vme.start)) then some fun _ => 0
      else (fetch (io node).byteAt (wrap (vme.offset+(va-vme.start)))
        (min 4096 ((io node).sizeInBytes-wrap (vme.offset+(va-vme.start))))).map pageWords := by
  obtain ⟨hs,-,-,hlt⟩ := h
  have hindex : wrap (sub64 va vme.start / 4096*4096) = va-vme.start := by
    rw [wrap, sub64]
    omega
  unfold loadPage
  rw [hn]
  dsimp only
  rw [hindex]
  generalize wrap (vme.offset+(va-vme.start)) = first
  have hsize := (io node).size_lt
  split
  · rfl
  rename_i hfirst
  have hwrap : wrap (first+4096) = first+4096 := by
    rw [wrap]
    omega
  have hsub : sub64 (io node).sizeInBytes first = (io node).sizeInBytes-first := by
    rw [sub64]
    omega
  have hcount : (if (io node).sizeInBytes < wrap (first+4096) then
      sub64 (io node).sizeInBytes first else 4096) = min 4096 ((io node).sizeInBytes-first) := by
    rw [hwrap, hsub]
    split <;> omega
  rw [hcount, Nat.mod_eq_of_lt (by omega), Nat.mod_eq_of_lt (by omega),
    Blocks.readExact_eq (by omega), if_pos (by omega)]

theorem loadPage_bytes {io : ν → BlockIo} {vme : Vme ν} {va : Nat} {content : Nat → Nat}
    (h : RegionOk vme) (hin : vme.start ≤ va ∧ va < vme.finish) (hva : va % 4096 = 0)
    (hl : loadPage io vme va = some content) :
    ∀ j < 4096, pageByte content j = (initialByte io vme (va+j)).toNat := by
  intro j hj
  have hzero : pageByte (fun _ => 0) j = 0 := by simp [pageByte]
  cases hn : vme.node with
  | none =>
    rw [loadPage, hn] at hl
    cases hl
    rw [initialByte, hn]
    exact hzero
  | some node =>
    rw [loadPage_eq h hin hva hn] at hl
    obtain ⟨hs,-,ho,hlt⟩ := h
    have hbyte : wrap (vme.offset+(va+j-vme.start)) = wrap (vme.offset+(va-vme.start))+j := by
      rw [wrap, wrap]
      omega
    rw [initialByte, hn]
    dsimp only
    rw [hbyte]
    generalize wrap (vme.offset+(va-vme.start)) = first at hl ⊢
    split at hl
    · cases hl
      rw [if_neg (by omega), hzero]
      rfl
    obtain ⟨xs,hxs,rfl⟩ := Option.map_eq_some_iff.mp hl
    obtain ⟨hlen,hcells⟩ := fetch_eq_some.mp hxs
    rw [pageByte_words]
    by_cases hend : first+j < (io node).sizeInBytes
    · rw [if_pos hend, hcells j (by omega)]
    · rw [if_neg hend, List.getElem?_eq_none (by omega)]
      rfl

theorem loadPage_isSome {io : ν → BlockIo} {vme : Vme ν} {va : Nat} {node : ν} (h : RegionOk vme)
    (hin : vme.start ≤ va ∧ va < vme.finish) (hva : va % 4096 = 0) (hn : vme.node = some node)
    (hread : ∀ i < (io node).sizeInBytes, ((io node).byteAt i).isSome) :
    ∃ content, loadPage io vme va = some content := by
  rw [loadPage_eq h hin hva hn]
  generalize wrap (vme.offset+(va-vme.start)) = first
  split
  · exact ⟨_, rfl⟩
  cases hf : fetch (io node).byteAt first (min 4096 ((io node).sizeInBytes-first)) with
  | none =>
    obtain ⟨i,hi,hmissing⟩ := fetch_eq_none.mp hf
    have := hread (first+i) (by omega)
    rw [hmissing] at this
    cases this
  | some xs => exact ⟨_, rfl⟩

/-! The handlers in a run. -/

def contents (va : Nat) (content : Nat → Nat) : List Event → Nat → Nat
  | [] => content
  | .store va' i value :: log =>
    if va' = va then update (contents va content log) i value else contents va content log
  | _ :: log => contents va content log

/-- What a handler works for: the page it checks, the region it has found for the page, and what
it has loaded. -/
def HandlerOk (io : ν → BlockIo) (check : Nat → Prop) (found : Nat → Vme ν → Prop) (ram : Ram) :
    Pc ν → Prop
  | .checking va => check va
  | .allocating vme va | .loading vme va _ => found va vme
  | .mapping vme va frame => found va vme ∧ loadPage io vme va = some (ram frame)
  | _ => True

abbrev FaultOk (io : ν → BlockIo) (vmes : List (Vme ν)) (ram : Ram) (pc : Pc ν) : Prop :=
  HandlerOk io (Mapped vmes) (fun va vme => findVme vmes va = some vme) ram pc

def held (pc : Nat → Pc ν) (f : Nat) : Prop := ∃ t, (pc t).frame = some f

/-- A frame that handlers have allocated is in a handler's hands, or mapped, or free again. -/
def Balanced (pc : Nat → Pc ν) (log : List Event) (f : Nat) : Prop :=
  held pc f ∧ log.count (.alloc f) =
      ((installs log).map Prod.snd).count f+log.count (.free f)+1 ∨
    ¬held pc f ∧ log.count (.alloc f) = ((installs log).map Prod.snd).count f+log.count (.free f)

structure Filled (io : ν → BlockIo) (b : Boot) (s : Kernel ν) : Prop where
  packed : Packed (sharedBase b.hhdmOffset) s.sharedVmes
  regions : ∀ vme ∈ s.sharedVmes, RegionOk vme
  apart : ∀ va ∈ windows s.log, ¬Mapped s.sharedVmes va
  handlers : ∀ t, FaultOk io s.sharedVmes s.ram (s.pc t)
  pages : ∀ va f, (va, f) ∈ installs s.log → ∃ vme c, findVme s.sharedVmes va = some vme ∧
    loadPage io vme va = some c ∧ s.ram f = contents va c s.log
  unstored : ∀ va, (∀ f, (va, f) ∉ installs s.log) → ∀ c, contents va c s.log = c
  once : ((installs s.log).map Prod.fst).Nodup
  balance : ∀ f, Balanced s.pc s.log f

variable {usable : Nat → Bool} {link : List Nat → Nat} {io : ν → BlockIo} {b : Boot}
  {own own' : Nat → Owner} {s s' : Kernel ν} {t f va frame : Nat} {pc : Pc ν} {vme : Vme ν}

theorem mapped_of_find {vmes : List (Vme ν)} (h : findVme vmes va = some vme) : Mapped vmes va :=
  Option.isSome_of_mem h

theorem HandlerOk.keep {check check' : Nat → Prop} {found found' : Nat → Vme ν → Prop}
    {ram ram' : Ram} (h : HandlerOk io check found ram pc) (hcheck : ∀ va, check va → check' va)
    (hv : ∀ va vme, found va vme → found' va vme)
    (hr : ∀ f, pc.frame = some f → ram' f = ram f) : HandlerOk io check' found' ram' pc := by
  cases pc with
  | checking va => exact hcheck va h
  | allocating vme va => exact hv va vme h
  | loading vme va frame => exact hv va vme h
  | mapping vme va frame =>
    refine ⟨hv va vme h.1, ?_⟩
    rw [hr frame rfl]
    exact h.2
  | _ => trivial

theorem FaultOk.keep {vmes vmes' : List (Vme ν)} {ram ram' : Ram} (h : FaultOk io vmes ram pc)
    (hv : ∀ a vme, findVme vmes a = some vme → findVme vmes' a = some vme)
    (hr : ∀ f, pc.frame = some f → ram' f = ram f) : FaultOk io vmes' ram' pc := by
  refine HandlerOk.keep h (fun va hm => ?_) hv hr
  obtain ⟨vme,hvme⟩ := Option.isSome_iff_exists.mp hm
  exact mapped_of_find (hv va vme hvme)

theorem Core.handlers_kept {check : Nat → Prop} {found : Nat → Vme ν → Prop}
    (hc : Core usable b own s) (h : ∀ t, HandlerOk io check found s.ram (s.pc t))
    (hpc : s'.pc = update s.pc t pc) (hu : Untouched own t s.ram s'.ram)
    (hok : HandlerOk io check found s'.ram pc) :
    ∀ t', HandlerOk io check found s'.ram (s'.pc t') := by
  intro t'
  rw [hpc]
  by_cases heq : t' = t
  · subst heq
    rwa [update_self]
  · rw [update_of_ne heq]
    refine (h t').keep (fun _ h => h) (fun _ _ h => h) fun f hf => ?_
    have hown := hc.threads.held t' f hf
    exact hu f (by rw [hown]; rfl) (by rw [hown]; nofun)
      (by rw [hown]; exact fun h => heq (Owner.held.inj h))

theorem Core.page_kept (hc : Core usable b own s) (hu : Untouched own t s.ram s'.ram)
    (hin : (va, f) ∈ installs s.log) : s'.ram f = s.ram f := by
  have hown := (hc.owned va f hin).1
  exact hu f (by rw [hown]; rfl) (by rw [hown]; nofun) (by rw [hown]; nofun)

theorem held_update {pcs : Nat → Pc ν} (hframe : pc.frame = some f ↔ (pcs t).frame = some f) :
    held (update pcs t pc) f ↔ held pcs f := by
  refine exists_congr fun t' => ?_
  by_cases heq : t' = t
  · subst heq
    rw [update_self, hframe]
  · rw [update_of_ne heq]

theorem held_self {pcs : Nat → Pc ν} (hframe : pc.frame = some f) : held (update pcs t pc) f :=
  ⟨t, by rw [update_self, hframe]⟩

theorem Core.released (hc : Core usable b own s) (hown : own f = .held t) (hframe : pc.frame = none) :
    ¬held (update s.pc t pc) f := by
  rintro ⟨t',hf⟩
  by_cases heq : t' = t
  · rw [heq, update_self, hframe] at hf
    cases hf
  · rw [update_of_ne heq] at hf
    have hother := hc.threads.held t' f hf
    rw [hown] at hother
    exact heq (Owner.held.inj hother).symm

/-! Events that say nothing about a frame. -/

def Event.quiet : Event → Bool
  | .fault _ | .region .. | .window _ | .empty => true
  | _ => false

theorem quiet_append {es : List Event} (hes : ∀ e ∈ es, e.quiet = true) (log : List Event) :
    installs (es ++ log) = installs log ∧
      (∀ va c, contents va c (es ++ log) = contents va c log) ∧
      ∀ f, (es ++ log).count (.alloc f) = log.count (.alloc f) ∧
        (es ++ log).count (.free f) = log.count (.free f) := by
  induction es with
  | nil => exact ⟨rfl, fun _ _ => rfl, fun _ => ⟨rfl, rfl⟩⟩
  | cons e es ih =>
    obtain ⟨hinst,hcont,hcount⟩ := ih fun e he => hes e (List.mem_cons_of_mem _ he)
    have he := hes e List.mem_cons_self
    rw [List.cons_append]
    cases e with
    | alloc | install | free | store => cases he
    | fault | region | window | empty =>
      refine ⟨hinst, hcont, fun f => ?_⟩
      rw [List.count_cons_of_ne (by nofun), List.count_cons_of_ne (by nofun)]
      exact hcount f

/-- Nothing happens to a frame that a handler holds or that a page has, and in the list every
address finds the region it found. -/
theorem Filled.quiet (h : Filled io b s) (es : List Event) (hes : ∀ e ∈ es, e.quiet = true)
    (hlog : s'.log = es ++ s.log) (hp : Packed (sharedBase b.hhdmOffset) s'.sharedVmes)
    (hr : ∀ vme ∈ s'.sharedVmes, RegionOk vme)
    (hv : ∀ a vme, findVme s.sharedVmes a = some vme → findVme s'.sharedVmes a = some vme)
    (hwin : ∀ va ∈ windows s'.log, ¬Mapped s'.sharedVmes va)
    (hok : ∀ t, FaultOk io s'.sharedVmes s'.ram (s'.pc t))
    (hpages : ∀ va f, (va, f) ∈ installs s.log → s'.ram f = s.ram f)
    (hheld : ∀ f, held s'.pc f ↔ held s.pc f) : Filled io b s' := by
  obtain ⟨hinst,hcont,hcount⟩ := quiet_append hes s.log
  rw [← hlog] at hinst hcont hcount
  refine ⟨hp, hr, hwin, hok, fun va f hin => ?_,
    fun va hn c => (hcont va c).trans (h.unstored va (hinst ▸ hn) c), hinst ▸ h.once, fun f => ?_⟩
  · rw [hinst] at hin
    obtain ⟨vme,c,hf,hl,hram⟩ := h.pages va f hin
    exact ⟨vme, c, hv va vme hf, hl, by rw [hpages va f hin, hcont, hram]⟩
  · have hbal := h.balance f
    unfold Balanced at hbal ⊢
    rw [hheld, (hcount f).1, (hcount f).2, hinst]
    exact hbal

section Thread
variable (h : Filled io b s) (hc : Core usable b own s) (hpc : s'.pc = update s.pc t pc)
  (hu : Untouched own t s.ram s'.ram)
include h hc hpc hu

theorem Filled.advance (hvmes : s'.sharedVmes = s.sharedVmes)
    (hok : FaultOk io s.sharedVmes s'.ram pc) (hframe : pc.frame = (s.pc t).frame)
    (hlog : s'.log = s.log ∨ ∃ va, s'.log = .fault va :: s.log) : Filled io b s' := by
  obtain ⟨es,hes,hlog,hwin⟩ : ∃ es : List Event, (∀ e ∈ es, e.quiet = true) ∧
      s'.log = es ++ s.log ∧ windows s'.log = windows s.log := by
    obtain hlog | ⟨va,hlog⟩ := hlog
    · exact ⟨[], nofun, hlog, by rw [hlog]⟩
    · refine ⟨[.fault va], fun e he => ?_, hlog, by rw [hlog]; rfl⟩
      rw [List.mem_singleton.mp he]
      rfl
  refine h.quiet es hes hlog (hvmes ▸ h.packed) (hvmes ▸ h.regions) (fun _ _ hf => hvmes ▸ hf) ?_
    (hvmes ▸ hc.handlers_kept h.handlers hpc hu hok) (fun va f hin => hc.page_kept hu hin) fun f => ?_
  · rw [hvmes, hwin]
    exact h.apart
  · rw [hpc]
    exact held_update (by rw [hframe])

theorem Filled.handle {e : Event} (hvmes : s'.sharedVmes = s.sharedVmes)
    (hok : FaultOk io s.sharedVmes s'.ram pc) (hlog : s'.log = e :: s.log)
    (hwin : e.windowed = none) (hcont : ∀ va c, contents va c (e :: s.log) = contents va c s.log)
    (hnew : ∀ va f, e.installed = some (va, f) → (∃ vme c, findVme s.sharedVmes va = some vme ∧
      loadPage io vme va = some c ∧ s'.ram f = contents va c s.log) ∧ ∀ f, (va, f) ∉ installs s.log)
    (hbal : ∀ f, Balanced s'.pc (e :: s.log) f) : Filled io b s' := by
  have hwindows : windows (e :: s.log) = windows s.log := List.filterMap_cons_none hwin
  refine ⟨hvmes ▸ h.packed, hvmes ▸ h.regions, ?_, hvmes ▸ hc.handlers_kept h.handlers hpc hu hok,
    fun va f hin => ?_, fun va hn c => ?_, ?_, hlog ▸ hbal⟩
  · rw [hlog, hwindows, hvmes]
    exact h.apart
  · rw [hlog] at hin ⊢
    rw [hvmes]
    have hold (hin : (va, f) ∈ installs s.log) : ∃ vme c, findVme s.sharedVmes va = some vme ∧
        loadPage io vme va = some c ∧ s'.ram f = contents va c (e :: s.log) := by
      obtain ⟨vme,c,hv,hl,hram⟩ := h.pages va f hin
      exact ⟨vme, c, hv, hl, by rw [hc.page_kept hu hin, hcont, hram]⟩
    cases he : e.installed with
    | none =>
      rw [installs, List.filterMap_cons_none he] at hin
      exact hold hin
    | some page =>
      rw [installs, List.filterMap_cons_some he] at hin
      obtain heq | hin := List.mem_cons.mp hin
      · obtain ⟨⟨vme,c,hv,hl,hram⟩,-⟩ := hnew va f (he.trans (congrArg some heq.symm))
        exact ⟨vme, c, hv, hl, by rw [hcont, hram]⟩
      · exact hold hin
  · rw [hlog] at hn ⊢
    refine (hcont va c).trans (h.unstored va (fun f hin => hn f ?_) c)
    obtain ⟨e',hmem,he'⟩ := List.mem_filterMap.mp hin
    exact List.mem_filterMap.mpr ⟨e', List.mem_cons_of_mem _ hmem, he'⟩
  · rw [hlog]
    cases he : e.installed with
    | none =>
      rw [installs, List.filterMap_cons_none he]
      exact h.once
    | some page =>
      rw [installs, List.filterMap_cons_some he, List.map_cons]
      refine List.nodup_cons.mpr ⟨fun hin => ?_, h.once⟩
      obtain ⟨⟨va,f⟩,hin,heq⟩ := List.mem_map.mp hin
      refine (hnew page.1 page.2 he).2 f ?_
      rw [← heq]
      exact hin

end Thread

theorem Filled.alloc (h : Filled io b s) (hc : Core usable b own s) {pool : List Nat}
    (hpc : s.pc t = .allocating vme va) (hs : s.stock = frame :: pool) :
    Filled io b (((s.hold (Frames.zeroFrame s.ram frame, pool)).note
      (.alloc frame)).goto t (.loading vme va frame)) := by
  have hown : own frame = .stock := hc.layout.stocked frame (hs ▸ List.mem_cons_self)
  have hok : findVme s.sharedVmes va = some vme := by
    have hok := h.handlers t
    rw [hpc] at hok
    exact hok
  refine h.handle hc rfl (.of_frame (fun g hg => update_of_ne hg _ _) (Or.inl hown)) rfl hok rfl rfl
    (fun _ _ => rfl) nofun fun f => ?_
  change Balanced (update s.pc t (.loading vme va frame)) (.alloc frame :: s.log) f
  have hbal := h.balance f
  have hinst : installs (.alloc frame :: s.log) = installs s.log := rfl
  have hfree : (Event.alloc frame :: s.log).count (.free f) = s.log.count (.free f) :=
    List.count_cons_of_ne (by nofun)
  unfold Balanced at hbal ⊢
  rw [hinst, hfree]
  by_cases heq : f = frame
  · subst heq
    obtain ⟨⟨t',hf⟩,-⟩ | ⟨-,hcount⟩ := hbal
    · rw [hc.threads.held t' f hf] at hown
      cases hown
    · refine Or.inl ⟨held_self rfl, ?_⟩
      rw [List.count_cons_self, hcount]
  · have hcount : (Event.alloc frame :: s.log).count (.alloc f) = s.log.count (.alloc f) :=
      List.count_cons_of_ne fun h => heq (Event.alloc.inj h).symm
    rw [hcount, held_update]
    · exact hbal
    · rw [hpc]
      exact ⟨fun h => absurd (Option.some.inj h).symm heq, nofun⟩

theorem Core.settle (hc : Core usable b own s) (hbal : Balanced s.pc s.log f)
    (hframe : (s.pc t).frame = some frame) (hpc : pc.frame = none) {log : List Event}
    (halloc : ∀ f, log.count (.alloc f) = s.log.count (.alloc f))
    (hcount : ∀ f, ((installs log).map Prod.snd).count f+log.count (.free f) =
      ((installs s.log).map Prod.snd).count f+s.log.count (.free f)+if f = frame then 1 else 0) :
    Balanced (update s.pc t pc) log f := by
  unfold Balanced at hbal ⊢
  rw [halloc, hcount]
  by_cases heq : f = frame
  · subst heq
    rw [if_pos rfl]
    refine Or.inr ⟨hc.released (hc.threads.held t f hframe) hpc, ?_⟩
    exact hbal.elim (fun hb => hb.2) fun hb => absurd ⟨t, hframe⟩ hb.1
  · rw [if_neg heq, held_update]
    · exact hbal
    · rw [hpc, hframe]
      exact ⟨nofun, fun h => absurd (Option.some.inj h).symm heq⟩

theorem Filled.free (h : Filled io b s) (hc : Core usable b own s)
    (hpc : s.pc t = .mapping vme va frame) :
    Filled io b (((s.hold (Teardown.free usable link (s.ram, s.stock) frame)).note
      (.free frame)).goto t .user) := by
  have hframe : (s.pc t).frame = some frame := by rw [hpc]; rfl
  refine h.handle hc rfl (.of_frame (fun g hg => free_other hg)
    (Or.inr (hc.threads.held t frame hframe))) rfl trivial rfl rfl (fun _ _ => rfl) nofun fun f => ?_
  refine hc.settle (h.balance f) hframe rfl (fun f => List.count_cons_of_ne (by nofun)) fun f => ?_
  have hinst : installs (.free frame :: s.log) = installs s.log := rfl
  rw [hinst, List.count_cons]
  by_cases heq : f = frame
  · simp [heq, Nat.add_assoc]
  · simp [heq, Ne.symm heq]

theorem Filled.install (h : Filled io b s) (hc : Core usable b own s)
    (hpc : s.pc t = .mapping vme va frame) (hnone : pagePresent b s.ram va = false) {m : State}
    (hsame : ∀ f, own f ≠ .stock → (own f).isTable = false → m.1 f = s.ram f) :
    Filled io b (((s.hold m).note (.install va frame)).goto t .user) := by
  have hframe : (s.pc t).frame = some frame := by rw [hpc]; rfl
  have hown := hc.threads.held t frame hframe
  have hok := h.handlers t
  rw [hpc] at hok
  have hnew (f : Nat) : (va, f) ∉ installs s.log := by
    intro hin
    obtain ⟨e,he,-⟩ := hc.mapped va f hin fun hw => h.apart va hw (mapped_of_find hok.1)
    rw [pagePresent_iff.mpr ⟨e, he⟩] at hnone
    cases hnone
  refine h.handle hc rfl (fun f hf hs _ => hsame f hs hf) rfl trivial rfl rfl (fun _ _ => rfl)
    (fun va' f' he => ?_) fun f => ?_
  · cases he
    refine ⟨⟨vme, s.ram frame, hok.1, hok.2, ?_⟩, hnew⟩
    rw [h.unstored va hnew]
    exact hsame frame (by rw [hown]; nofun) (by rw [hown]; rfl)
  · refine hc.settle (h.balance f) hframe rfl (fun f => List.count_cons_of_ne (by nofun)) fun f => ?_
    have hinst : installs (.install va frame :: s.log) = (va, frame) :: installs s.log := rfl
    have hfree : (Event.install va frame :: s.log).count (.free f) = s.log.count (.free f) :=
      List.count_cons_of_ne (by nofun)
    rw [hinst, hfree, List.map_cons, List.count_cons]
    by_cases heq : f = frame
    · simp [heq]
      omega
    · simp [heq, Ne.symm heq]

/-! The calls. -/

theorem RegionOk.insert {vmes vmes' : List (Vme ν)} {limit length offset : Nat} {file : Option ν}
    (hr : ∀ vme ∈ vmes, RegionOk vme) (hp : Packed (sharedBase b.hhdmOffset) vmes)
    (hlimit : limit < 2^64) (ho : offset % 4096 = 0)
    (hs : Vmes.insertFrom limit (pageAlignUp length) file offset true (sharedBase b.hhdmOffset)
      vmes = some (va, vmes')) : ∀ vme ∈ vmes', RegionOk vme := by
  obtain ⟨-,-,hfit,-,-,hat,hmem,-⟩ := hp.insert hlimit hs
  have hva : va % 4096 = 0 := by
    obtain hbase | ⟨vme,hv,rfl⟩ := hat
    · have haligned := b.aligned
      rw [hbase, b.sharedBase_eq]
      omega
    · exact (hr vme hv).finish
  have hlen : pageAlignUp length % 4096 = 0 := Vmes.pageAlignUp_mod
  intro vme hv
  obtain hv | rfl := hmem vme hv
  · exact hr vme hv
  · exact ⟨hva, by dsimp only; omega, ho, by dsimp only; omega⟩

theorem Filled.store (h : Filled io b s) (hc : Core usable b own s) {i value : Nat}
    (hin : (va, f) ∈ installs s.log) :
    Filled io b ({ s with ram := Frames.storeWord s.ram f i value }.note (.store va i value)) := by
  have hown := (hc.owned va f hin).1
  have hother {g : Nat} (hg : own g ≠ .page va) : Frames.storeWord s.ram f i value g = s.ram g := by
    refine update_of_ne ?_ _ _
    rintro rfl
    exact hg hown
  have hinst : installs (.store va i value :: s.log) = installs s.log := rfl
  refine ⟨h.packed, h.regions, h.apart, fun t => (h.handlers t).keep (fun _ _ hv => hv)
    fun g hg => hother (by simp [hc.threads.held t g hg]), fun va' f' hin' => ?_,
    fun va' hn c => ?_, h.once, fun g => ?_⟩
  · obtain ⟨vme,c,hv,hl,hram⟩ := h.pages va' f' hin'
    refine ⟨vme, c, hv, hl, ?_⟩
    change Frames.storeWord s.ram f i value f' = contents va' c (.store va i value :: s.log)
    rw [contents]
    by_cases heq : va = va'
    · subst heq
      obtain ⟨-,rfl⟩ := Prod.mk.inj (List.inj_on_of_nodup_map h.once hin hin' rfl)
      rw [if_pos rfl, ← hram, Frames.storeWord, update_self]
    · rw [if_neg heq, ← hram]
      refine hother ?_
      rw [(hc.owned va' f' hin').1]
      exact fun h => heq (Owner.page.inj h).symm
  · change contents va' c (.store va i value :: s.log) = c
    have hne : va ≠ va' := by
      rintro rfl
      exact hn f hin
    rw [contents, if_neg hne]
    exact h.unstored va' hn c
  · have hbal := h.balance g
    have hcount : (Event.store va i value :: s.log).count (.alloc g) = s.log.count (.alloc g) ∧
        (Event.store va i value :: s.log).count (.free g) = s.log.count (.free g) :=
      ⟨List.count_cons_of_ne (by simp), List.count_cons_of_ne (by simp)⟩
    change Balanced s.pc (.store va i value :: s.log) g
    unfold Balanced at hbal ⊢
    rw [hcount.1, hcount.2, hinst]
    exact hbal

/-! A step of a run. -/

/-- The mappings stay, no window is on a page of a region, and faults are on pages of regions. -/
def Kernel.Faulting (b : Boot) (s : Kernel ν) : Action ν → Prop
  | .run t => s.pc t ≠ .last
  | .fault _ cr2 _ => Mapped s.sharedVmes (cr2.toNat / 4096 * 4096)
  | .store _ va .. => Mapped s.sharedVmes va
  | .mapMmio _ pa length => ∀ curr ∈ mmioPages pa.toNat length.toNat,
    ¬Mapped s.sharedVmes (wrap (curr+b.hhdmOffset))
  | .mmap _ length .. => ∀ va ∈ windows s.log,
    ¬(endOf (sharedBase b.hhdmOffset) s.sharedVmes ≤ va ∧
      va < endOf (sharedBase b.hhdmOffset) s.sharedVmes+pageAlignUp length.toNat)
  | .create _ | .exit _ => True

instance [DecidableEq ν] (s : Kernel ν) : ∀ a, Decidable (s.Faulting b a)
  | .run t => inferInstanceAs (Decidable (s.pc t ≠ .last))
  | .fault _ cr2 _ => inferInstanceAs (Decidable (Mapped s.sharedVmes (cr2.toNat / 4096 * 4096)))
  | .store _ va .. => inferInstanceAs (Decidable (Mapped s.sharedVmes va))
  | .mapMmio .. => inferInstanceAs (Decidable (∀ _ ∈ _, ¬_))
  | .mmap .. => inferInstanceAs (Decidable (∀ _ ∈ _, ¬(_ ∧ _)))
  | .create _ | .exit _ => inferInstanceAs (Decidable True)

theorem Filled.run (h : Filled io b s) (hc : Core usable b own s) (hlast : s.pc t ≠ .last)
    (hs : s.run io usable link b t = some s') : Filled io b s' := by
  obtain ⟨own',-,hu⟩ := hc.run hs
  unfold Kernel.run at hs
  cases hpc : s.pc t with
  | unborn | user | gone =>
    rw [hpc] at hs
    cases hs
  | created =>
    simp only [hpc] at hs
    obtain ⟨m,hm,rfl⟩ := Option.map_eq_some_iff.mp hs
    exact h.advance hc rfl hu rfl trivial (by rw [hpc]; rfl) (Or.inl rfl)
  | copying =>
    simp only [hpc] at hs
    split at hs
    · cases hs
    · cases hs
      exact h.advance hc rfl hu rfl trivial (by rw [hpc]; rfl) (Or.inl rfl)
  | counting =>
    simp only [hpc] at hs
    cases hs
    exact h.advance hc rfl hu rfl trivial (by rw [hpc]; rfl) (Or.inl rfl)
  | checking va =>
    simp only [hpc] at hs
    split at hs
    · cases hs
    rename_i vme hv
    split at hs
    · cases hs
      exact h.advance hc rfl hu rfl trivial (by rw [hpc]; rfl) (Or.inl rfl)
    · cases hs
      exact h.advance hc rfl hu rfl hv (by rw [hpc]; rfl) (Or.inr ⟨va, rfl⟩)
  | allocating vme va =>
    simp only [hpc] at hs
    cases hstock : s.stock with
    | nil =>
      rw [hstock] at hs
      cases hs
    | cons frame pool =>
      rw [hstock] at hs
      cases hs
      exact h.alloc hc hpc hstock
  | loading vme va frame =>
    simp only [hpc] at hs
    obtain ⟨content,hl,rfl⟩ := Option.map_eq_some_iff.mp hs
    have hok := h.handlers t
    rw [hpc] at hok
    refine h.advance hc rfl hu rfl ⟨hok, ?_⟩ (by rw [hpc]; rfl) (Or.inl rfl)
    change _ = some (update s.ram frame content frame)
    rw [update_self, hl]
  | mapping vme va frame =>
    simp only [hpc] at hs
    split at hs
    · cases hs
      exact h.free hc hpc
    rename_i hnone
    split at hs
    · obtain ⟨m,hm,rfl⟩ := Option.map_eq_some_iff.mp hs
      obtain ⟨-,-,hsame,-⟩ := hc.install hpc (by simpa using hnone) hm
      exact h.install hc hpc (by simpa using hnone) hsame
    · cases hs
  | closing =>
    simp only [hpc] at hs
    cases hs
    refine h.advance hc rfl hu rfl ?_ ?_ (Or.inl rfl)
    · split <;> trivial
    · rw [hpc]
      split <;> rfl
  | last => exact absurd hpc hlast
  | freeing =>
    simp only [hpc] at hs
    split at hs
    · cases hs
    · cases hs
      exact h.advance hc rfl hu rfl trivial (by rw [hpc]; rfl) (Or.inl rfl)

theorem Filled.mapMmio (h : Filled io b s) (hc : Core usable b own s) {pa length : Nat} {m : State}
    (hapart : ∀ curr ∈ mmioPages pa length, ¬Mapped s.sharedVmes (wrap (curr+b.hhdmOffset)))
    (hsame : ∀ f, own f ≠ .stock → (own f).isTable = false → m.1 f = s.ram f) :
    Filled io b { s.hold m with log := ((mmioPages pa length).map fun curr =>
      Event.window (wrap (curr+b.hhdmOffset))) ++ s.log } := by
  refine h.quiet _ (fun e he => ?_) rfl h.packed h.regions (fun _ _ hf => hf) (fun va hv => ?_)
    (fun t => (h.handlers t).keep (fun _ _ hf => hf) fun f hf => ?_) (fun va f hin => ?_)
    fun f => Iff.rfl
  · obtain ⟨curr,-,rfl⟩ := List.mem_map.mp he
    rfl
  · obtain ⟨e,he,hva⟩ := List.mem_filterMap.mp hv
    obtain he | he := List.mem_append.mp he
    · obtain ⟨curr,hcurr,rfl⟩ := List.mem_map.mp he
      cases hva
      exact hapart curr hcurr
    · exact h.apart va (List.mem_filterMap.mpr ⟨e, he, hva⟩)
  · have hown := hc.threads.held t f hf
    exact hsame f (by rw [hown]; nofun) (by rw [hown]; rfl)
  · have hown := (hc.owned va f hin).1
    exact hsame f (by rw [hown]; nofun) (by rw [hown]; rfl)

theorem Filled.insert (h : Filled io b s) {vmes : List (Vme ν)} {length offset start : Nat}
    {file : Option ν} (ho : offset % 4096 = 0)
    (hs : Vmes.insertFrom sharedLimit (pageAlignUp length) file offset true
      (sharedBase b.hhdmOffset) s.sharedVmes = some (start, vmes))
    (hfree : ∀ va ∈ windows s.log, ¬(endOf (sharedBase b.hhdmOffset) s.sharedVmes ≤ va ∧
      va < endOf (sharedBase b.hhdmOffset) s.sharedVmes+pageAlignUp length)) :
    Filled io b ({ s with sharedVmes := vmes }.note (.region start (pageAlignUp length))) := by
  have hlimit : sharedLimit < 2^64 := by decide
  have hregions := RegionOk.insert h.regions h.packed hlimit ho hs
  obtain ⟨hp,hend,-,-,-,-,-,hv⟩ := h.packed.insert hlimit hs
  refine h.quiet [.region start (pageAlignUp length)] (fun e he => ?_) rfl hp hregions hv
    (fun va hw hm => ?_) (fun t => (h.handlers t).keep hv fun _ _ => rfl) (fun _ _ _ => rfl)
    fun f => Iff.rfl
  · rw [List.mem_singleton.mp he]
    rfl
  · have hw : va ∈ windows s.log := hw
    have hin := hp.mapped_iff.mp hm
    rw [hend] at hin
    have hold := h.apart va hw
    rw [h.packed.mapped_iff] at hold
    exact hfree va hw (by omega)

theorem Filled.step (h : Filled io b s) (hc : Core usable b own s) {a : Action ν}
    (ha : s.Faulting b a) (hs : s.step io usable link b a = some s') : Filled io b s' := by
  unfold Kernel.step at hs
  split at hs
  swap
  · cases hs
  rename_i hcaller
  have huser {t : Nat} (ht : a.caller = some t) : (s.pc t).frame = none := by
    rw [ht, Option.all_some, isUser_iff] at hcaller
    rw [hcaller]
    rfl
  have hsame {t : Nat} : Untouched own t s.ram s.ram := fun _ _ _ _ => rfl
  cases a with
  | run t => exact h.run hc ha hs
  | mapMmio t pa length =>
    obtain ⟨m,hm,rfl⟩ := Option.map_eq_some_iff.mp hs
    obtain ⟨own',-,hram⟩ := hc.mapMmio (caller_root s t) hm
    exact h.mapMmio hc ha hram
  | create t =>
    cases hs
    have hframe : (s.pc s.made).frame = none := by
      rw [hc.threads.unborn s.made (Nat.le_refl _)]
      rfl
    exact h.advance hc (show _ = update s.pc s.made .created from rfl) hsame rfl trivial hframe.symm
      (Or.inl rfl)
  | exit t =>
    cases hs
    exact h.advance hc (show _ = update s.pc t .closing from rfl) hsame rfl trivial
      (huser rfl).symm (Or.inl rfl)
  | mmap t length flags file offset =>
    obtain rfl | ⟨start,vmes,ho,hins,rfl⟩ := mmap_cases hs
    · exact h
    · exact h.insert ho hins ha
  | fault t cr2 errorCode =>
    obtain ⟨-,rfl⟩ := fault_eq hs
    exact h.advance hc (t := t) rfl hsame rfl ha (huser rfl).symm (Or.inl rfl)
  | store t va i value =>
    obtain ⟨hshared,e,he,rfl⟩ := store_eq hs
    obtain ⟨f,hin,hf,-⟩ := hc.store i value hshared (fun hw => h.apart va hw ha) he
    rw [hf]
    exact h.store hc hin

theorem filled_boot {ram : Ram} {stock : List Nat} :
    Filled io b (Kernel.boot ram stock : Kernel ν) := by
  have hidle (t : Nat) : ((Kernel.boot ram stock : Kernel ν).pc t).frame = none ∧
      FaultOk io [] ram ((Kernel.boot ram stock : Kernel ν).pc t) := by
    rw [Kernel.boot]
    dsimp only
    split
    · exact ⟨rfl, trivial⟩
    · exact ⟨rfl, trivial⟩
  refine ⟨trivial, List.forall_mem_nil _, List.forall_mem_nil _, fun t => (hidle t).2,
    fun _ _ hin => absurd hin List.not_mem_nil, fun _ _ _ => rfl, List.nodup_nil,
    fun f => Or.inr ⟨?_, rfl⟩⟩
  rintro ⟨t,ht⟩
  rw [(hidle t).1] at ht
  cases ht

theorem filled_invariant : ((sharedMachine io usable link b).under (Kernel.Faulting b)).Invariant
    fun s => ∃ own, Core usable b own s ∧ Filled io b s where
  init := by
    rintro s ⟨ram,stock,hok,rfl⟩
    obtain ⟨own,hcore⟩ := core_boot hok
    exact ⟨own, hcore, filled_boot⟩
  step := by
    rintro s s' ⟨own,hc,hf⟩ ⟨a,ha,hs⟩
    have hstore : ∀ t va i value, a = .store t va i value → va ∉ windows s.log := by
      rintro t va i value rfl hw
      exact hf.apart va hw ha
    obtain ⟨own',hc'⟩ := hc.step hstore hs
    exact ⟨own', hc', hf.step hc ha hs⟩

/-! The way of a handler. -/

/-- How far a handler is from its return. -/
def Pc.rank : Pc ν → Nat
  | .checking _ => 4
  | .allocating .. => 3
  | .loading .. => 2
  | .mapping .. => 1
  | _ => 0

/-- With frames for the page and its tables, and a file that can be read, a handler goes on. -/
theorem Filled.progress (h : Filled io b s) (hc : Core usable b own s)
    (hp : (s.pc t).page = some va) (hroom : 3 ≤ s.stock.length)
    (hread : ∀ vme, findVme s.sharedVmes va = some vme → (loadPage io vme va).isSome) :
    ∃ s', s.run io usable link b t = some s' ∧ (s'.pc t = .user ∨ (s'.pc t).page = some va) ∧
      (s'.pc t).rank < (s.pc t).rank := by
  have hok := h.handlers t
  have hshared := (hc.page hp).1
  unfold Kernel.run
  cases hpc : s.pc t with
  | unborn | created | copying | counting | user | closing | last | freeing | gone =>
    rw [hpc] at hp
    cases hp
  | checking va' =>
    rw [hpc] at hp hok
    obtain rfl : va' = va := Option.some.inj hp
    obtain ⟨vme,hv⟩ := Option.isSome_iff_exists.mp hok
    simp only [hv]
    split
    · refine ⟨_, rfl, ?_⟩
      rw [Kernel.goto_self]
      exact ⟨Or.inl rfl, by simp [Pc.rank]⟩
    · refine ⟨_, rfl, ?_⟩
      rw [Kernel.goto_self]
      exact ⟨Or.inr rfl, by simp [Pc.rank]⟩
  | allocating vme va' =>
    rw [hpc] at hp
    obtain rfl : va' = va := Option.some.inj hp
    cases hstock : s.stock with
    | nil =>
      rw [hstock] at hroom
      cases hroom
    | cons frame pool =>
      refine ⟨_, rfl, ?_⟩
      rw [Kernel.goto_self]
      exact ⟨Or.inr rfl, by simp [Pc.rank]⟩
  | loading vme va' frame =>
    rw [hpc] at hp hok
    obtain rfl : va' = va := Option.some.inj hp
    obtain ⟨content,hl⟩ := Option.isSome_iff_exists.mp (hread vme hok)
    refine ⟨_, congrArg (Option.map _) hl, ?_⟩
    rw [Kernel.goto_self]
    exact ⟨Or.inr rfl, by simp [Pc.rank]⟩
  | mapping vme va' frame =>
    rw [hpc] at hp
    obtain rfl : va' = va := Option.some.inj hp
    dsimp only
    split
    · refine ⟨_, rfl, ?_⟩
      rw [Kernel.goto_self]
      exact ⟨Or.inl rfl, by simp [Pc.rank]⟩
    · obtain ⟨ram,pool,hm,-⟩ := map_isSome s.ram b.common (va' >>> 12) frame true true hroom
      rw [if_pos hshared.canonical, hm]
      refine ⟨_, rfl, ?_⟩
      rw [Kernel.goto_self]
      exact ⟨Or.inl rfl, by simp [Pc.rank]⟩

theorem Filled.returns (h : Filled io b s) (hc : Core usable b own s)
    (hp : (s.pc t).page = some va) (hs : s.run io usable link b t = some s')
    (hu : s'.pc t = .user) : ∃ f, (va, f) ∈ installs s'.log := by
  have hok := h.handlers t
  have hshared := (hc.page hp).1
  have hthere (hpresent : pagePresent b s.ram va = true) (hm : Mapped s.sharedVmes va) :
      ∃ f, (va, f) ∈ installs s.log := by
    obtain ⟨e,he⟩ := pagePresent_iff.mp hpresent
    exact (hc.present va hshared (walk_of_pte hc.layout.wellFormed he)).resolve_left
      fun hw => h.apart va hw hm
  unfold Kernel.run at hs
  cases hpc : s.pc t with
  | unborn | created | copying | counting | user | closing | last | freeing | gone =>
    rw [hpc] at hp
    cases hp
  | checking va' =>
    rw [hpc] at hp hok
    obtain rfl : va' = va := Option.some.inj hp
    simp only [hpc] at hs
    split at hs
    · cases hs
    split at hs
    · rename_i hpresent
      cases hs
      exact hthere hpresent hok
    · cases hs
      rw [Kernel.goto_self] at hu
      cases hu
  | allocating vme va' =>
    simp only [hpc] at hs
    obtain ⟨m,-,rfl⟩ := Option.map_eq_some_iff.mp hs
    rw [Kernel.goto_self] at hu
    cases hu
  | loading vme va' frame =>
    simp only [hpc] at hs
    obtain ⟨content,-,rfl⟩ := Option.map_eq_some_iff.mp hs
    rw [Kernel.goto_self] at hu
    cases hu
  | mapping vme va' frame =>
    rw [hpc] at hp hok
    obtain rfl : va' = va := Option.some.inj hp
    simp only [hpc] at hs
    split at hs
    · rename_i hpresent
      cases hs
      exact hthere hpresent (mapped_of_find hok.1)
    split at hs
    · obtain ⟨m,-,rfl⟩ := Option.map_eq_some_iff.mp hs
      exact ⟨frame, List.mem_cons_self⟩
    · cases hs

/-- In every run of threads that fault on pages of shared regions, a page gets one frame, which
stays and holds what the region has there, loaded once, under the stores to it. A frame that a
handler takes is in its hands, or mapped once, or free again. A handler that returns leaves the
page mapped, and it returns where frames and the file are there. -/
theorem shared_faults (ν : Type*) (io : ν → BlockIo) (usable : Nat → Bool)
    (link : List Nat → Nat) (b : Boot) (s : Kernel ν)
    (hr : ((sharedMachine io usable link b).under (Kernel.Faulting b)).Reachable s) :
    ((installs s.log).map Prod.fst).Nodup ∧
    (∀ va f, (va, f) ∈ installs s.log → HasFrame b s.ram va f ∧
      ∃ vme c, findVme s.sharedVmes va = some vme ∧
        (∀ j < 4096, pageByte c j = (initialByte io vme (va+j)).toNat) ∧
        s.ram f = contents va c s.log) ∧
    (∀ f, Balanced s.pc s.log f) ∧
    (∀ a s', s.Faulting b a → s.step io usable link b a = some s' →
      ∀ va f, (va, f) ∈ installs s.log → (va, f) ∈ installs s'.log ∧ HasFrame b s'.ram va f) ∧
    ∀ t va, (s.pc t).page = some va →
      (∀ s', s.step io usable link b (.run t) = some s' → s'.pc t = .user →
        ∃ f, (va, f) ∈ installs s'.log) ∧
      (3 ≤ s.stock.length →
        (∀ vme, findVme s.sharedVmes va = some vme → (loadPage io vme va).isSome) →
        ∃ s', s.step io usable link b (.run t) = some s' ∧
          (s'.pc t = .user ∨ (s'.pc t).page = some va) ∧ (s'.pc t).rank < (s.pc t).rank) := by
  obtain ⟨own,hc,hf⟩ := filled_invariant.reachable hr
  have hmapped {s : Kernel ν} {own : Nat → Owner} (hc : Core usable b own s) (hf : Filled io b s)
      {va f : Nat} (hin : (va, f) ∈ installs s.log) : HasFrame b s.ram va f := by
    obtain ⟨vme,c,hv,-⟩ := hf.pages va f hin
    exact hc.mapped va f hin fun hw => hf.apart va hw (mapped_of_find hv)
  refine ⟨hf.once, fun va f hin => ⟨hmapped hc hf hin, ?_⟩, hf.balance, fun a s' ha hs va f hin => ?_,
    fun t va hp => ⟨fun s' hs hu => hf.returns hc hp hs hu, fun hroom hread =>
      hf.progress hc hp hroom hread⟩⟩
  · obtain ⟨vme,c,hv,hl,hram⟩ := hf.pages va f hin
    have hregion := hf.regions vme (List.mem_of_find?_eq_some hv)
    have hrange : vme.start ≤ va ∧ va < vme.finish := by
      simpa using List.find?_some hv
    exact ⟨vme, c, hv, loadPage_bytes hregion hrange (hc.owned va f hin).2.2.2 hl, hram⟩
  · obtain ⟨own',hc',hf'⟩ := filled_invariant.step s s' ⟨own, hc, hf⟩ ⟨a, ha, hs⟩
    obtain ⟨es,hlog⟩ := step_log hs
    have hin' : (va, f) ∈ installs s'.log := by
      rw [hlog, installs, List.filterMap_append]
      exact List.mem_append_right _ hin
    exact ⟨hin', hmapped hc' hf' hin'⟩

/-- Two threads fault on one page at the same time; the second one is first to map it. -/
def raceActions : List (Action Empty) :=
  [.run 0, .run 0, .run 0, .mmap 0 0x2000 3 none 0, .create 0, .run 1, .run 1, .run 1,
    .fault 0 0xFFFFFF0008001234 6, .fault 1 0xFFFFFF0008001FF8 4, .run 0, .run 1, .run 0, .run 1,
    .run 0, .run 1, .run 1, .run 0]

theorem shared_faults_race :
    let s := (smallMachine Empty nofun).run (Kernel.boot smallRam smallStock) raceActions
    s.log = [.free 5, .install 0xFFFFFF0008001000 6, .alloc 6, .alloc 5,
      .fault 0xFFFFFF0008001000, .fault 0xFFFFFF0008001000, .region 0xFFFFFF0008000000 0x2000] ∧
    HasFrame smallBoot s.ram 0xFFFFFF0008001000 6 := by
  intro s
  have hlog : s.log = [.free 5, .install 0xFFFFFF0008001000 6, .alloc 6, .alloc 5,
      .fault 0xFFFFFF0008001000, .fault 0xFFFFFF0008001000,
      .region 0xFFFFFF0008000000 0x2000] := by
    decide +kernel
  have hr := smallMachine_reachable nofun (Kernel.Faulting smallBoot) raceActions (by decide +kernel)
  obtain ⟨-,hpages,-⟩ := shared_faults Empty nofun _ _ smallBoot s hr
  refine ⟨hlog, (hpages _ _ ?_).1⟩
  rw [hlog]
  decide

end NetKernel.SharedMappings
