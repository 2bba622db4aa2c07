import NetKernel.Memory.SharedFaults
import NetKernel.Memory.SharedLifetime

/-! What a new shared region has at its pages: regions go one after another from the base of the
shared range on, windows of `map_mmio` stay out of their room, and an emptied list is not used
again. -/
namespace NetKernel.SharedMappings
open Function Runs PageTables Teardown
open Blocks (BlockIo)
open Frames (Ram)
open Heaps (wrap)
open Vmes (Vme Mappings Mapped endOf findVme pageAlignUp sharedBase sharedLimit)
open Territories

variable {ν : Type*} {usable : Nat → Bool} {link : List Nat → Nat} {io : ν → BlockIo} {b : Boot}
  {own own' : Nat → Owner} {s s' : Kernel ν} {t f va frame : Nat} {pc : Pc ν} {vme : Vme ν}

def Event.room : Event → Nat
  | .region _ length => length
  | _ => 0

/-- The bytes that the calls of `mmap` have taken of the shared range, rounded up to pages. -/
def taken (log : List Event) : Nat := (log.map Event.room).sum

/-- `va` is in the room of so many bytes from the base of the shared range on. -/
def Boot.Within (b : Boot) (first length va : Nat) : Prop :=
  sharedBase b.hhdmOffset+first ≤ va ∧ va < sharedBase b.hhdmOffset+first+length

instance (first length va : Nat) : Decidable (b.Within first length va) :=
  inferInstanceAs (Decidable (_ ∧ _))

/-- `map_mmio` is not asked for a window in the room of the regions, a region not for room in
which a window is, and no store is to a window. When the last of the active threads stops
counting, no thread is on its way to count. -/
def Kernel.Apart (b : Boot) (s : Kernel ν) : Action ν → Prop
  | .mapMmio _ pa length => ∀ curr ∈ mmioPages pa.toNat length.toNat,
    ¬b.Within 0 (taken s.log) (wrap (curr+b.hhdmOffset))
  | .mmap _ length .. => ∀ va ∈ windows s.log,
    ¬b.Within (taken s.log) (pageAlignUp length.toNat) va
  | .store _ va .. => va ∉ windows s.log
  | .run t => s.Settled (.run t)
  | .create _ | .fault .. | .exit _ => True

/-- A handler works for the region that the list has at the page, and has loaded what the region
has there. Pages that handlers have mapped are in regions, and windows are in none. -/
structure Placed (io : ν → BlockIo) (b : Boot) (s : Kernel ν) : Prop where
  regions : ∀ vme ∈ s.sharedVmes, RegionOk vme
  room : .empty ∉ s.log →
    endOf (sharedBase b.hhdmOffset) s.sharedVmes = sharedBase b.hhdmOffset+taken s.log
  emptied : .empty ∈ s.log → s.sharedVmes = []
  clear : ∀ va ∈ windows s.log, ¬b.Within 0 (taken s.log) va
  handlers : ∀ t, HandlerOk io (fun _ => True)
    (fun va vme => findVme s.sharedVmes va = some vme) s.ram (s.pc t)
  installed : .empty ∉ s.log → ∀ va f, (va, f) ∈ installs s.log → Mapped s.sharedVmes va

/-! Events that take no room. -/

def Event.Inside (vmes : List (Vme ν)) : Event → Prop
  | .install va _ => Mapped vmes va
  | .region .. | .window _ | .empty => False
  | _ => True

theorem inside_cons {e : Event} {vmes : List (Vme ν)} (he : e.Inside vmes) (log : List Event) :
    taken (e :: log) = taken log ∧ windows (e :: log) = windows log ∧
      (.empty ∈ e :: log ↔ .empty ∈ log) ∧
      ∀ va f, (va, f) ∈ installs (e :: log) → (va, f) ∈ installs log ∨ Mapped vmes va := by
  have hne : Event.empty ≠ e := by
    rintro rfl
    exact he
  refine ⟨?_, ?_, by rw [List.mem_cons, or_iff_right hne], fun va f hin => ?_⟩
  · cases e with
    | region => exact he.elim
    | _ => exact Nat.zero_add _
  · cases e with
    | window => exact he.elim
    | _ => rfl
  · cases e with
    | install va' f' =>
      obtain heq | hin := List.mem_cons.mp hin
      · cases heq
        exact Or.inr he
      · exact Or.inl hin
    | _ => exact Or.inl hin

theorem taken_windows (pages : List Nat) (log : List Event) :
    taken (pages.map Event.window ++ log) = taken log ∧
      windows (pages.map Event.window ++ log) = pages ++ windows log ∧
      installs (pages.map Event.window ++ log) = installs log ∧
      (.empty ∈ pages.map Event.window ++ log ↔ .empty ∈ log) := by
  induction pages with
  | nil => exact ⟨rfl, rfl, rfl, Iff.rfl⟩
  | cons page pages ih =>
    obtain ⟨htaken,hwindows,hinstalls,hempty⟩ := ih
    refine ⟨(Nat.zero_add _).trans htaken, congrArg (page :: ·) hwindows, hinstalls, ?_⟩
    rw [List.map_cons, List.cons_append, List.mem_cons, or_iff_right (by nofun), hempty]

theorem Placed.advance (h : Placed io b s) (hc : Core usable b own s)
    (hpc : s'.pc = update s.pc t pc) (hu : Untouched own t s.ram s'.ram)
    (hvmes : s'.sharedVmes = s.sharedVmes)
    (hlog : s'.log = s.log ∨ ∃ e : Event, e.Inside s.sharedVmes ∧ s'.log = e :: s.log)
    (hok : HandlerOk io (fun _ => True) (fun va vme => findVme s.sharedVmes va = some vme)
      s'.ram pc) : Placed io b s' := by
  have hhandlers := hc.handlers_kept h.handlers hpc hu hok
  rw [← hvmes] at hhandlers
  obtain ⟨htaken,hwindows,hempty,hinstalls⟩ : taken s'.log = taken s.log ∧
      windows s'.log = windows s.log ∧ (.empty ∈ s'.log ↔ .empty ∈ s.log) ∧
      ∀ va f, (va, f) ∈ installs s'.log → (va, f) ∈ installs s.log ∨ Mapped s.sharedVmes va := by
    obtain hlog | ⟨e,he,hlog⟩ := hlog
    · rw [hlog]
      exact ⟨rfl, rfl, Iff.rfl, fun _ _ => Or.inl⟩
    · rw [hlog]
      exact inside_cons he s.log
  refine ⟨hvmes ▸ h.regions, fun he => ?_, fun he => ?_, ?_, hhandlers, fun he va f hin => ?_⟩
  · rw [hvmes, htaken]
    exact h.room (he ∘ hempty.mpr)
  · rw [hvmes]
    exact h.emptied (hempty.mp he)
  · rw [hwindows, htaken]
    exact h.clear
  · rw [hvmes]
    exact (hinstalls va f hin).elim (h.installed (he ∘ hempty.mpr) va f) id

theorem handlerOk_ended {check : Nat → Prop} {found : Nat → Vme ν → Prop} {ram : Ram}
    (h : pc.ended = true) : HandlerOk io check found ram pc := by
  cases pc with
  | last | freeing | gone => trivial
  | _ => cases h

/-- The last thread empties the list; all threads have ended, so no handler works for a region
of it. -/
theorem Placed.empty (h : Placed io b s) (hl : Lived b s) (hpc : s.pc t = .last) :
    Placed io b (({ s with sharedVmes := [] }.note .empty).goto t .freeing) := by
  have hall := hl.last (Or.inl ⟨t, hpc⟩)
  refine ⟨nofun, fun he => absurd List.mem_cons_self he, fun _ => rfl, fun va hw => ?_,
    fun k => ?_, fun he => absurd List.mem_cons_self he⟩
  · change ¬b.Within 0 (0+taken s.log) va
    rw [Nat.zero_add]
    exact h.clear va hw
  · change HandlerOk _ _ _ _ (update s.pc t .freeing k)
    by_cases heq : k = t
    · subst heq
      rw [update_self]
      trivial
    rw [update_of_ne heq]
    by_cases hk : k < s.made
    · exact handlerOk_ended (hall k hk)
    · rw [(hl.unborn k).mpr (Nat.le_of_not_lt hk)]
      trivial

theorem Placed.run (h : Placed io b s) (hc : Core usable b own s) (hl : Lived b s)
    (hs : s.run io usable link b t = some s') : Placed io b s' := by
  obtain ⟨own',-,hu⟩ := hc.run hs
  have hok := h.handlers t
  unfold Kernel.run at hs
  cases hpc : s.pc t with
  | unborn | user | gone =>
    rw [hpc] at hs
    cases hs
  | created =>
    simp only [hpc] at hs
    obtain ⟨m,-,rfl⟩ := Option.map_eq_some_iff.mp hs
    exact h.advance hc rfl hu rfl (Or.inl rfl) trivial
  | copying | freeing =>
    simp only [hpc] at hs
    split at hs
    · cases hs
    · cases hs
      exact h.advance hc rfl hu rfl (Or.inl rfl) trivial
  | counting =>
    simp only [hpc] at hs
    cases hs
    exact h.advance hc rfl hu rfl (Or.inl rfl) trivial
  | checking va =>
    simp only [hpc] at hs
    split at hs
    · cases hs
    rename_i vme hv
    split at hs
    · cases hs
      exact h.advance hc rfl hu rfl (Or.inl rfl) trivial
    · cases hs
      exact h.advance hc rfl hu rfl (Or.inr ⟨.fault va, trivial, rfl⟩) hv
  | allocating vme va =>
    rw [hpc] at hok
    simp only [hpc] at hs
    obtain ⟨⟨frame,ram,pool⟩,-,rfl⟩ := Option.map_eq_some_iff.mp hs
    exact h.advance hc rfl hu rfl (Or.inr ⟨.alloc frame, trivial, rfl⟩) hok
  | loading vme va frame =>
    rw [hpc] at hok
    simp only [hpc] at hs
    obtain ⟨content,hload,rfl⟩ := Option.map_eq_some_iff.mp hs
    refine h.advance hc rfl hu rfl (Or.inl rfl) ⟨hok, ?_⟩
    change _ = some (update s.ram frame content frame)
    rw [update_self, hload]
  | mapping vme va frame =>
    rw [hpc] at hok
    simp only [hpc] at hs
    split at hs
    · cases hs
      exact h.advance hc rfl hu rfl (Or.inr ⟨.free frame, trivial, rfl⟩) trivial
    split at hs
    · obtain ⟨m,-,rfl⟩ := Option.map_eq_some_iff.mp hs
      exact h.advance hc rfl hu rfl
        (Or.inr ⟨.install va frame, mapped_of_find hok.1, rfl⟩) trivial
    · cases hs
  | closing =>
    simp only [hpc] at hs
    cases hs
    refine h.advance hc rfl hu rfl (Or.inl rfl) ?_
    split <;> trivial
  | last =>
    simp only [hpc] at hs
    cases hs
    exact h.empty hl hpc

theorem Placed.mapMmio (h : Placed io b s) (hc : Core usable b own s) {pa length : Nat} {m : State}
    (hapart : ∀ curr ∈ mmioPages pa length, ¬b.Within 0 (taken s.log) (wrap (curr+b.hhdmOffset)))
    (hsame : ∀ f, own f ≠ .stock → (own f).isTable = false → m.1 f = s.ram f) :
    Placed io b { s.hold m with log := ((mmioPages pa length).map fun curr =>
      Event.window (wrap (curr+b.hhdmOffset))) ++ s.log } := by
  have hmap : ((mmioPages pa length).map fun curr => Event.window (wrap (curr+b.hhdmOffset))) =
      ((mmioPages pa length).map fun curr => wrap (curr+b.hhdmOffset)).map Event.window := by
    rw [List.map_map]
    rfl
  rw [hmap]
  obtain ⟨htaken,hwindows,hinstalls,hempty⟩ := taken_windows
    ((mmioPages pa length).map fun curr => wrap (curr+b.hhdmOffset)) s.log
  refine ⟨h.regions, fun he => ?_, fun he => h.emptied (hempty.mp he), fun va hw => ?_,
    fun t => (h.handlers t).keep (fun _ h => h) (fun _ _ h => h) fun f hf => ?_,
    fun he va f hin => ?_⟩
  · dsimp only
    rw [htaken]
    exact h.room (he ∘ hempty.mpr)
  · dsimp only at hw ⊢
    rw [htaken]
    rw [hwindows] at hw
    obtain hw | hw := List.mem_append.mp hw
    · obtain ⟨curr,hcurr,rfl⟩ := List.mem_map.mp hw
      exact hapart curr hcurr
    · exact h.clear va hw
  · have hown := hc.threads.held t f hf
    exact hsame f (by rw [hown]; nofun) (by rw [hown]; rfl)
  · dsimp only at hin
    rw [hinstalls] at hin
    exact h.installed (he ∘ hempty.mpr) va f hin

theorem Placed.insert (h : Placed io b s) (hl : Lived b s) (hopen : .empty ∉ s.log)
    {vmes : List (Vme ν)} {length offset start : Nat} {file : Option ν} (ho : offset % 4096 = 0)
    (hfree : ∀ va ∈ windows s.log, ¬b.Within (taken s.log) (pageAlignUp length) va)
    (hs : Vmes.insertFrom sharedLimit (pageAlignUp length) file offset true
      (sharedBase b.hhdmOffset) s.sharedVmes = some (start, vmes)) :
    Placed io b ({ s with sharedVmes := vmes }.note (.region start (pageAlignUp length))) := by
  have hlimit : sharedLimit < 2^64 := by decide
  obtain ⟨-,hend,-,-,-,-,-,hkept⟩ := hl.packed.insert hlimit hs
  have htaken : taken (.region start (pageAlignUp length) :: s.log) =
      pageAlignUp length+taken s.log := rfl
  refine ⟨RegionOk.insert h.regions hl.packed hlimit ho hs, fun _ => ?_, fun he => ?_,
    fun va hw hin => ?_, fun t => (h.handlers t).keep (fun _ h => h) hkept fun _ _ => rfl,
    fun _ va f hin => ?_⟩
  · change endOf _ vmes = _+taken (.region start (pageAlignUp length) :: s.log)
    rw [hend, h.room hopen, htaken]
    omega
  · exact absurd ((List.mem_cons.mp he).resolve_left nofun) hopen
  · have hold := h.clear va hw
    have hnew := hfree va hw
    change b.Within 0 (taken (.region start (pageAlignUp length) :: s.log)) va at hin
    rw [htaken] at hin
    simp only [Boot.Within] at hold hnew hin
    omega
  · obtain ⟨vme,hv⟩ := Option.isSome_iff_exists.mp (h.installed hopen va f hin)
    exact mapped_of_find (hkept va vme hv)

/-- A store goes to a frame that a page has, and so to none in a handler's hands. -/
theorem Placed.store (h : Placed io b s) (hc : Core usable b own s) {i value : Nat}
    (hin : (va, f) ∈ installs s.log) :
    Placed io b
      ({ s with ram := Frames.storeWord s.ram f i value }.note (.store va i value)) := by
  have hinside : (Event.store va i value).Inside s.sharedVmes := trivial
  obtain ⟨htaken,hwindows,hempty,-⟩ := inside_cons hinside s.log
  refine ⟨h.regions, fun hn => ?_, fun he => h.emptied (hempty.mp he), fun va' hw => ?_,
    fun k => (h.handlers k).keep (fun _ h => h) (fun _ _ h => h) fun g hg => ?_,
    fun hn => h.installed (hn ∘ hempty.mpr)⟩
  · exact (h.room (hn ∘ hempty.mpr)).trans (congrArg _ htaken.symm)
  · change ¬b.Within 0 (taken (.store va i value :: s.log)) va'
    rw [htaken]
    exact h.clear va' hw
  · refine update_of_ne ?_ _ _
    rintro rfl
    have hown := hc.threads.held k g hg
    rw [(hc.owned va g hin).1] at hown
    cases hown

theorem Placed.step (h : Placed io b s) (hc : Core usable b own s) (hl : Lived b s)
    {a : Action ν} (ha : s.Apart b a) (hs : s.step io usable link b a = some s') :
    Placed io b s' := by
  unfold Kernel.step at hs
  split at hs
  swap
  · cases hs
  rename_i hcaller
  have hsame {t : Nat} : Untouched own t s.ram s.ram := fun _ _ _ _ => rfl
  cases a with
  | run t => exact h.run hc hl hs
  | mapMmio t pa length =>
    obtain ⟨m,hm,rfl⟩ := Option.map_eq_some_iff.mp hs
    obtain ⟨own',-,hram⟩ := hc.mapMmio (caller_root s t) hm
    exact h.mapMmio hc ha hram
  | create t =>
    cases hs
    exact h.advance hc (show _ = update s.pc s.made .created from rfl) hsame rfl (Or.inl rfl)
      trivial
  | exit t =>
    cases hs
    exact h.advance hc (show _ = update s.pc t .closing from rfl) hsame rfl (Or.inl rfl) trivial
  | mmap t length flags file offset =>
    have huser : s.pc t = .user := by
      rwa [Action.caller, Option.all_some, isUser_iff] at hcaller
    obtain rfl | ⟨start,vmes,ho,hins,rfl⟩ := mmap_cases hs
    · exact h
    · have hopen := (hl.open_list (t := t) (by rw [huser]; nofun) (by rw [huser]; rfl)).2
      exact h.insert hl hopen ho ha hins
  | fault t cr2 errorCode =>
    obtain ⟨-,rfl⟩ := fault_eq hs
    exact h.advance hc (t := t) rfl hsame rfl (Or.inl rfl) trivial
  | store t va i value =>
    obtain ⟨hshared,e,he,rfl⟩ := store_eq hs
    obtain ⟨f,hin,hf,-⟩ := hc.store i value hshared ha he
    rw [hf]
    exact h.store hc hin

theorem placed_boot {ram : Ram} {stock : List Nat} :
    Placed io b (Kernel.boot ram stock : Kernel ν) := by
  have hend (lo : Nat) : endOf lo ([] : List (Vme ν)) = lo+taken [] := rfl
  refine ⟨nofun, fun _ => hend _, nofun, nofun, fun t => ?_, fun _ => nofun⟩
  rw [Kernel.boot]
  dsimp only
  split <;> trivial

theorem Kernel.Apart.settled {a : Action ν} (ha : s.Apart b a) : s.Settled a := by
  cases a with
  | run t => exact ha
  | _ => trivial

theorem placed_invariant : ((sharedMachine io usable link b).under (Kernel.Apart b)).Invariant
    fun s => (∃ own, Core usable b own s) ∧ Lived b s ∧ Placed io b s where
  init := by
    rintro s ⟨ram,stock,hok,rfl⟩
    exact ⟨core_boot hok, lived_boot, placed_boot⟩
  step := by
    rintro s s' ⟨⟨own,hc⟩,hl,hp⟩ ⟨a,ha,hs⟩
    have hstore : ∀ t va i value, a = .store t va i value → va ∉ windows s.log := by
      rintro t va i value rfl
      exact ha
    exact ⟨hc.step hstore hs, hl.step ha.settled hs, hp.step hc hl ha hs⟩

theorem Placed.fresh (h : Placed io b s) (hc : Core usable b own s) (hl : Lived b s)
    (hopen : .empty ∉ s.log) {length offset start : Nat} {file : Option ν} {vmes : List (Vme ν)}
    (hfree : ∀ va ∈ windows s.log, ¬b.Within (taken s.log) (pageAlignUp length) va)
    (hs : Vmes.insertFrom sharedLimit (pageAlignUp length) file offset true
      (sharedBase b.hhdmOffset) s.sharedVmes = some (start, vmes)) {p : Nat} (hpage : p % 4096 = 0)
    (hle : start ≤ p) (hlt : p < start+pageAlignUp length) :
    walk s.ram 3 b.common (p >>> 12) = none := by
  have hlimit : sharedLimit < 2^64 := by decide
  obtain ⟨-,-,hfit,hlo,hstart,-⟩ := hl.packed.insert hlimit hs
  have hroom := h.room hopen
  obtain rfl := hstart (by omega)
  have hshared : b.Shared p := ⟨hlo.trans hle, by omega, hpage⟩
  by_contra hpresent
  obtain hw | ⟨f,hin⟩ := hc.present p hshared hpresent
  · exact hfree p hw ⟨by omega, by omega⟩
  · have hbelow := hl.packed.mapped_iff.mp (h.installed hopen p f hin)
    omega

/-- In every run in which windows and regions stay out of each other's room and no thread is
starting when the count falls to zero, no page of a region is present when `mmap` returns it, so
that the first access to it faults. A page of a region that is present has the frame of a handler,
and what a handler maps there is zeros or the bytes of the file. -/
theorem shared_regions (ν : Type*) (io : ν → BlockIo) (usable : Nat → Bool)
    (link : List Nat → Nat) (b : Boot) (s : Kernel ν)
    (hr : ((sharedMachine io usable link b).under (Kernel.Apart b)).Reachable s) :
    (∀ t (length : UInt64) flags file offset s', s.Apart b (.mmap t length flags file offset) →
      s.step io usable link b (.mmap t length flags file offset) = some s' →
      s'.log = s.log ∨ ∃ va, s'.log = .region va (pageAlignUp length.toNat) :: s.log ∧
        ∀ p, p % 4096 = 0 → va ≤ p → p < va+pageAlignUp length.toNat →
          walk s'.ram 3 b.common (p >>> 12) = none ∧ pagePresent b s'.ram p = false) ∧
    (∀ p, b.Shared p → Mapped s.sharedVmes p → walk s.ram 3 b.common (p >>> 12) ≠ none →
      ∃ f, (p, f) ∈ installs s.log ∧ HasFrame b s.ram p f) ∧
    ∀ t vme va frame, s.pc t = .mapping vme va frame → findVme s.sharedVmes va = some vme ∧
      ∀ j < 4096, pageByte (s.ram frame) j = (initialByte io vme (va+j)).toNat := by
  obtain ⟨⟨own,hc⟩,hl,hp⟩ := placed_invariant.reachable hr
  refine ⟨fun t length flags file offset s' ha hs => ?_, fun p hshared hm hpresent => ?_,
    fun t vme va frame hpc => ?_⟩
  · unfold Kernel.step at hs
    split at hs
    swap
    · cases hs
    rename_i hcaller
    have huser : s.pc t = .user := by
      rwa [Action.caller, Option.all_some, isUser_iff] at hcaller
    obtain rfl | ⟨start,vmes,-,hins,rfl⟩ := mmap_cases hs
    · exact Or.inl rfl
    · have hopen := (hl.open_list (t := t) (by rw [huser]; nofun) (by rw [huser]; rfl)).2
      refine Or.inr ⟨start, rfl, fun p hpage hle hlt => ?_⟩
      have hnone := hp.fresh hc hl hopen ha hins hpage hle hlt
      refine ⟨hnone, Bool.eq_false_iff.mpr fun hpresent => ?_⟩
      obtain ⟨e,he⟩ := pagePresent_iff.mp hpresent
      exact walk_of_pte hc.layout.wellFormed he hnone
  · have hopen : .empty ∉ s.log := fun he => by
      rw [hp.emptied he] at hm
      cases hm
    have hin := hl.packed.mapped_iff.mp hm
    rw [hp.room hopen] at hin
    have hwindow : p ∉ windows s.log := fun hw => hp.clear p hw ⟨by omega, by omega⟩
    obtain ⟨f,hinst⟩ := (hc.present p hshared hpresent).resolve_left hwindow
    exact ⟨f, hinst, hc.mapped p f hinst hwindow⟩
  · have hok := hp.handlers t
    have hpage : (s.pc t).page = some va := by rw [hpc]; rfl
    have hplace := (hc.page hpage).1
    rw [hpc] at hok
    obtain ⟨hv,hload⟩ := hok
    exact ⟨hv, loadPage_bytes (hp.regions vme (List.mem_of_find?_eq_some hv))
      (by simpa using List.find?_some hv) hplace.2.2 hload⟩

instance (s : Kernel ν) [DecidableEq ν] : ∀ a, Decidable (s.Apart b a)
  | .mapMmio .. => inferInstanceAs (Decidable (∀ _ ∈ _, ¬_))
  | .mmap .. => inferInstanceAs (Decidable (∀ _ ∈ _, ¬_))
  | .store _ va .. => inferInstanceAs (Decidable (va ∉ windows s.log))
  | .run t => inferInstanceAs (Decidable (s.Settled (.run t)))
  | .create _ | .fault .. | .exit _ => inferInstanceAs (Decidable True)

def windowActions : List (Action Empty) :=
  [.run 0, .run 0, .run 0, .mapMmio (some 0) 0xFEBF0000 0x1000]

/-- A thread maps the window of a device and then a region of two pages, faults on the second and
is about to map the first. -/
def regionActions : List (Action Empty) :=
  windowActions ++ [.mmap 0 0x2000 3 none 0, .fault 0 0xFFFFFF0008001234 6, .run 0, .run 0,
    .run 0, .run 0, .fault 0 0xFFFFFF0008000000 6, .run 0, .run 0, .run 0]

theorem shared_regions_below :
    (∃ s', ((smallMachine Empty nofun).run
        (Kernel.boot smallRam smallStock) windowActions).step nofun (fun _ => true) (fun _ => 0)
        smallBoot (.mmap 0 0x2000 3 none 0) = some s' ∧
      walk s'.ram 3 1 (0xFFFFFF0008001000 >>> 12) = none) ∧
    ∃ s, s = (smallMachine Empty nofun).run (Kernel.boot smallRam smallStock) regionActions ∧
      HasFrame smallBoot s.ram 0xFFFFFF0008001000 6 ∧ ∀ j < 4096, pageByte (s.ram 9) j = 0 := by
  constructor
  · have hr := smallMachine_reachable nofun (Kernel.Apart smallBoot) windowActions
      (by decide +kernel)
    generalize hs : (smallMachine Empty nofun).run (Kernel.boot smallRam smallStock) windowActions =
      s at hr ⊢
    obtain ⟨ha,hlog⟩ : s.Apart smallBoot (.mmap 0 0x2000 3 none 0) ∧
        (s.step nofun (fun _ => true) (fun _ => 0) smallBoot (.mmap 0 0x2000 3 none 0)).map
          (·.log) = some (.region 0xFFFFFF0008000000 0x2000 :: s.log) := by
      subst hs
      decide +kernel
    obtain ⟨s',hstep,hlog'⟩ := Option.map_eq_some_iff.mp hlog
    have hlen : pageAlignUp (0x2000 : UInt64).toNat = 0x2000 := by decide
    obtain ⟨hregions,-⟩ := shared_regions Empty nofun _ _ smallBoot s hr
    obtain heq | ⟨va,hva,hpages⟩ := hregions 0 0x2000 3 none 0 s' ha hstep
    · exact absurd (hlog'.symm.trans heq) (List.cons_ne_self _ _)
    · rw [hlog', hlen] at hva
      rw [hlen] at hpages
      cases hva
      exact ⟨s', hstep, (hpages _ (by decide) (by decide) (by decide)).1⟩
  · have hr := smallMachine_reachable nofun (Kernel.Apart smallBoot) regionActions
      (by decide +kernel)
    generalize hs : (smallMachine Empty nofun).run (Kernel.boot smallRam smallStock) regionActions =
      s at hr ⊢
    obtain ⟨hmapped,hpresent,hinst,hpc⟩ : Mapped s.sharedVmes 0xFFFFFF0008001000 ∧
        walk s.ram 3 1 (0xFFFFFF0008001000 >>> 12) ≠ none ∧
        installs s.log = [(0xFFFFFF0008001000, 6)] ∧
        s.pc 0 = .mapping ⟨0xFFFFFF0008000000, 0xFFFFFF0008002000, none, 0, true⟩
          0xFFFFFF0008000000 9 := by
      subst hs
      decide +kernel
    obtain ⟨-,hpages,hload⟩ := shared_regions Empty nofun _ _ smallBoot s hr
    obtain ⟨f,hin,hhas⟩ := hpages 0xFFFFFF0008001000 ⟨by decide, by decide, by decide⟩ hmapped
      hpresent
    rw [hinst] at hin
    cases List.mem_singleton.mp hin
    exact ⟨s, rfl, hhas, (hload 0 _ _ 9 hpc).2⟩

/-- A large region takes the window in. -/
theorem window_in_region : ¬∀ s, (smallMachine Empty nofun).system.Reachable s →
    ∀ t length flags file offset s' va n,
      (smallMachine Empty nofun).step s (.mmap t length flags file offset) = some s' →
      s'.log = .region va n :: s.log → ∀ p, p % 4096 = 0 → va ≤ p → p < va+n →
        walk s'.ram 3 smallBoot.common (p >>> 12) = none := by
  intro hall
  have hr := smallMachine_reachable nofun (fun _ _ => True) windowActions Machine.allowed_true
  generalize hs : (smallMachine Empty nofun).run (Kernel.boot smallRam smallStock) windowActions = s
    at hr
  have hstep : ((smallMachine Empty nofun).step s (.mmap 0 0xF6BF1000 3 none 0)).map
      (fun s' => (s'.log, (walk s'.ram 3 1 (0xFFFFFF00FEBF0000 >>> 12)).isSome)) =
      some (.region 0xFFFFFF0008000000 0xF6BF1000 :: s.log, true) := by
    subst hs
    decide +kernel
  obtain ⟨s',hs',heq⟩ := Option.map_eq_some_iff.mp hstep
  obtain ⟨hlog,hsome⟩ := Prod.mk.inj heq
  have hnone := hall s hr 0 0xF6BF1000 3 none 0 s' _ _ hs' hlog 0xFFFFFF00FEBF0000 (by decide)
    (by decide) (by decide)
  have hnone : walk s'.ram 3 1 (0xFFFFFF00FEBF0000 >>> 12) = none := hnone
  rw [hnone] at hsome
  cases hsome

end NetKernel.SharedMappings
