import NetKernel.Memory.SharedInvariant

/-! How long the list of shared regions lives: the threads that count as active, and the thread
that empties the list. -/
namespace NetKernel.SharedMappings
open Function Runs PageTables
open Slots (Circulation)
open Blocks (BlockIo)
open Vmes (Vme Mappings Mapped Packed endOf findVme insertFrom pageAlignUp sharedBase sharedLimit)

variable {ν : Type*} {usable : Nat → Bool} {link : List Nat → Nat} {io : ν → BlockIo} {b : Boot}
  {s s' : Kernel ν} {t : Nat} {pc pc' : Pc ν} {a : Action ν}

/-- The thread counts in `active_vmm_threads`. -/
def Pc.counted : Pc ν → Bool
  | .user | .checking _ | .allocating .. | .loading .. | .mapping .. | .closing => true
  | _ => false

/-- The thread was made and is not past its `init_thread`. -/
def Pc.starting : Pc ν → Bool
  | .created | .copying | .counting => true
  | _ => false

def Pc.ended : Pc ν → Bool
  | .last | .freeing | .gone => true
  | _ => false

/-- The thread has entered `fini_thread`. -/
def Pc.inFini : Pc ν → Bool
  | .closing | .last | .freeing | .gone => true
  | _ => false

def Event.listed : Event → Bool
  | .region .. | .empty => true
  | _ => false

theorem Pc.inFini_of_ended (h : pc.ended = true) : pc.inFini = true := by
  cases pc with
  | last | freeing | gone => rfl
  | _ => cases h

theorem Pc.parts (h : pc ≠ .unborn) :
    pc.starting = true ∨ pc.counted = true ∨ pc.ended = true := by
  cases pc with
  | unborn => exact absurd rfl h
  | created | copying | counting => exact Or.inl rfl
  | user | checking | allocating | loading | mapping | closing => exact Or.inr (Or.inl rfl)
  | last | freeing | gone => exact Or.inr (Or.inr rfl)

/-! What a step does to the threads and to the list. -/

/-- A thread at `pc'` counts as it did at `pc`. -/
structure Pc.Like (pc pc' : Pc ν) : Prop where
  counted : pc'.counted = pc.counted
  ended : pc'.ended = pc.ended
  unborn : pc' = .unborn ↔ pc = .unborn
  last : pc' = .last → pc = .last

/-- A step in which no thread starts to count or stops counting. -/
structure Moved (s s' : Kernel ν) (t : Nat) (pc : Pc ν) : Prop where
  pcs : s'.pc = update s.pc t pc
  made : s'.made = s.made
  active : s'.active = s.active
  vmes : s'.sharedVmes = s.sharedVmes
  log : s'.log.filter Event.listed = s.log.filter Event.listed
  like : (s.pc t).Like pc

theorem Moved.refl (s : Kernel ν) : Moved s s 0 (s.pc 0) :=
  ⟨(update_eq_self ..).symm, rfl, rfl, rfl, rfl, ⟨rfl, rfl, Iff.rfl, fun h => h⟩⟩

theorem run_cases (hs : s.run io usable link b t = some s') : (∃ pc, Moved s s' t pc) ∨
    s.pc t = .counting ∧ s' = { s with active := s.active+1 }.goto t .user ∨
    s.pc t = .closing ∧ s' = { s with active := s.active-1 }.goto t
      (if s.active-1 = 0 then .last else .freeing) ∨
    s.pc t = .last ∧ s' = ({ s with sharedVmes := [] }.note .empty).goto t .freeing := by
  unfold Kernel.run at hs
  cases hpc : s.pc t with
  | unborn | user | gone =>
    rw [hpc] at hs
    cases hs
  | counting =>
    simp only [hpc] at hs
    cases hs
    exact Or.inr (Or.inl ⟨rfl, rfl⟩)
  | closing =>
    simp only [hpc] at hs
    cases hs
    exact Or.inr (Or.inr (Or.inl ⟨rfl, rfl⟩))
  | last =>
    simp only [hpc] at hs
    cases hs
    exact Or.inr (Or.inr (Or.inr ⟨rfl, rfl⟩))
  | created | loading =>
    simp only [hpc] at hs
    obtain ⟨m,-,rfl⟩ := Option.map_eq_some_iff.mp hs
    exact Or.inl ⟨_, rfl, rfl, rfl, rfl, rfl, hpc ▸ ⟨rfl, rfl, ⟨nofun, nofun⟩, nofun⟩⟩
  | copying | freeing =>
    simp only [hpc] at hs
    split at hs
    · cases hs
    · cases hs
      exact Or.inl ⟨_, rfl, rfl, rfl, rfl, rfl, hpc ▸ ⟨rfl, rfl, ⟨nofun, nofun⟩, nofun⟩⟩
  | checking va =>
    simp only [hpc] at hs
    split at hs
    · cases hs
    split at hs
    · cases hs
      exact Or.inl ⟨_, rfl, rfl, rfl, rfl, rfl, hpc ▸ ⟨rfl, rfl, ⟨nofun, nofun⟩, nofun⟩⟩
    · cases hs
      exact Or.inl ⟨_, rfl, rfl, rfl, rfl, rfl, hpc ▸ ⟨rfl, rfl, ⟨nofun, nofun⟩, nofun⟩⟩
  | allocating vme va =>
    simp only [hpc] at hs
    obtain ⟨m,-,rfl⟩ := Option.map_eq_some_iff.mp hs
    exact Or.inl ⟨_, rfl, rfl, rfl, rfl, rfl, hpc ▸ ⟨rfl, rfl, ⟨nofun, nofun⟩, nofun⟩⟩
  | mapping vme va frame =>
    simp only [hpc] at hs
    split at hs
    · cases hs
      exact Or.inl ⟨_, rfl, rfl, rfl, rfl, rfl, hpc ▸ ⟨rfl, rfl, ⟨nofun, nofun⟩, nofun⟩⟩
    split at hs
    · obtain ⟨m,-,rfl⟩ := Option.map_eq_some_iff.mp hs
      exact Or.inl ⟨_, rfl, rfl, rfl, rfl, rfl, hpc ▸ ⟨rfl, rfl, ⟨nofun, nofun⟩, nofun⟩⟩
    · cases hs

theorem step_cases (hs : s.step io usable link b a = some s') : (∃ t pc, Moved s s' t pc) ∨
    (∃ t, s.pc t = .counting ∧ s' = { s with active := s.active+1 }.goto t .user) ∨
    (∃ t, a = .run t ∧ s.pc t = .closing ∧ s' = { s with active := s.active-1 }.goto t
      (if s.active-1 = 0 then .last else .freeing)) ∨
    (∃ t, s.pc t = .last ∧ s' = ({ s with sharedVmes := [] }.note .empty).goto t .freeing) ∨
    (∃ t, s.pc t = .user ∧ s' = { s.goto s.made .created with made := s.made+1 }) ∨
    ∃ t start length offset file vmes, s.pc t = .user ∧
      insertFrom sharedLimit length file offset true (sharedBase b.hhdmOffset) s.sharedVmes =
        some (start, vmes) ∧
      s' = { s with sharedVmes := vmes }.note (.region start length) := by
  unfold Kernel.step at hs
  split at hs
  swap
  · cases hs
  rename_i hcaller
  have huser {t : Nat} (ht : a.caller = some t) : s.pc t = .user := by
    rwa [ht, Option.all_some, isUser_iff] at hcaller
  cases a with
  | run t =>
    obtain ⟨pc,hmoved⟩ | h | h | h := run_cases hs
    · exact Or.inl ⟨t, pc, hmoved⟩
    · exact Or.inr (Or.inl ⟨t, h⟩)
    · exact Or.inr (Or.inr (Or.inl ⟨t, rfl, h⟩))
    · exact Or.inr (Or.inr (Or.inr (Or.inl ⟨t, h⟩)))
  | create t =>
    cases hs
    exact Or.inr (Or.inr (Or.inr (Or.inr (Or.inl ⟨t, huser rfl, rfl⟩))))
  | mmap t length flags file offset =>
    obtain rfl | ⟨start,vmes,-,hins,rfl⟩ := mmap_cases hs
    · exact Or.inl ⟨0, _, Moved.refl s'⟩
    · exact Or.inr (Or.inr (Or.inr (Or.inr (Or.inr
        ⟨t, start, _, _, _, vmes, huser rfl, hins, rfl⟩))))
  | exit t =>
    cases hs
    exact Or.inl ⟨t, .closing, rfl, rfl, rfl, rfl, rfl,
      huser (t := t) rfl ▸ ⟨rfl, rfl, ⟨nofun, nofun⟩, nofun⟩⟩
  | fault t cr2 errorCode =>
    obtain ⟨-,rfl⟩ := fault_eq hs
    exact Or.inl ⟨t, _, rfl, rfl, rfl, rfl, rfl,
      huser (t := t) rfl ▸ ⟨rfl, rfl, ⟨nofun, nofun⟩, nofun⟩⟩
  | store t va i value =>
    obtain ⟨-,e,-,rfl⟩ := store_eq hs
    obtain ⟨hp,hm,ha,hv,hlog,hlike⟩ := Moved.refl s
    exact Or.inl ⟨0, _, hp, hm, ha, hv, hlog, hlike⟩
  | mapMmio t pa length =>
    obtain ⟨m,-,rfl⟩ := Option.map_eq_some_iff.mp hs
    obtain ⟨hp,hm,ha,hv,-,hlike⟩ := Moved.refl s
    refine Or.inl ⟨0, _, hp, hm, ha, hv, ?_, hlike⟩
    dsimp only
    rw [List.filter_append, List.filter_eq_nil_iff.mpr, List.nil_append]
    intro e he
    obtain ⟨curr,-,rfl⟩ := List.mem_map.mp he
    nofun

theorem Pc.Like.all {pcs : Nat → Pc ν} (h : (pcs t).Like pc) (k : Nat) :
    (pcs k).Like (update pcs t pc k) := by
  by_cases heq : k = t
  · subst heq
    rwa [update_self]
  · rw [update_of_ne heq]
    exact ⟨rfl, rfl, Iff.rfl, fun h => h⟩

theorem Moved.all (h : Moved s s' t pc) (k : Nat) : (s.pc k).Like (s'.pc k) := by
  rw [h.pcs]
  exact h.like.all k

theorem Moved.mem (h : Moved s s' t pc) {e : Event} (he : e.listed = true) :
    e ∈ s'.log ↔ e ∈ s.log := by
  have hmem : e ∈ s'.log.filter Event.listed ↔ e ∈ s.log.filter Event.listed := by rw [h.log]
  simpa [List.mem_filter, he] using hmem

/-! Runs in which no thread is starting when the count falls to zero. -/

/-- When the last of the active threads stops counting, no thread is on its way to count. -/
def Kernel.Settled (s : Kernel ν) : Action ν → Prop
  | .run t => s.pc t = .closing → s.active = 1 → ∀ t' < s.made, (s.pc t').starting = false
  | _ => True

/-- The list is emptied after the last thread has stopped counting. -/
structure Lived (b : Boot) (s : Kernel ν) : Prop where
  unborn : ∀ t, s.pc t = .unborn ↔ s.made ≤ t
  counts : ∃ l, Circulation s.made (fun t => (s.pc t).counted) l ∧ l.length = s.active
  last : (∃ t, s.pc t = .last) ∨ .empty ∈ s.log → ∀ t < s.made, (s.pc t).ended = true
  packed : Packed (sharedBase b.hhdmOffset) s.sharedVmes
  regions : .empty ∉ s.log → ∀ va n, .region va n ∈ s.log → ∀ x, va ≤ x → x < va+n →
    Mapped s.sharedVmes x

theorem Lived.lt (h : Lived b s) (hp : s.pc t ≠ .unborn) : t < s.made := by
  by_contra hle
  exact hp ((h.unborn t).mpr (Nat.le_of_not_lt hle))

theorem Lived.open_list (h : Lived b s) (hp : s.pc t ≠ .unborn) (hended : (s.pc t).ended = false) :
    (∀ k, s.pc k ≠ .last) ∧ .empty ∉ s.log := by
  have hnot (hl : (∃ k, s.pc k = .last) ∨ .empty ∈ s.log) : False := by
    have hall := h.last hl t (h.lt hp)
    rw [hended] at hall
    cases hall
  exact ⟨fun k hk => hnot (Or.inl ⟨k, hk⟩), fun he => hnot (Or.inr he)⟩

theorem Lived.unborn_update (h : Lived b s) (hp : s.pc t ≠ .unborn) (hpc : pc ≠ .unborn) (k : Nat) :
    update s.pc t pc k = .unborn ↔ s.made ≤ k := by
  by_cases heq : k = t
  · subst heq
    rw [update_self, ← h.unborn]
    exact ⟨fun hu => absurd hu hpc, fun hu => absurd hu hp⟩
  · rw [update_of_ne heq]
    exact h.unborn k

theorem last_update {pcs : Nat → Pc ν} {k : Nat} (hk : update pcs t pc k = .last)
    (hpc : pc ≠ .last) : pcs k = .last := by
  by_cases heq : k = t
  · rw [heq, update_self] at hk
    exact absurd hk hpc
  · rwa [update_of_ne heq] at hk

theorem Lived.moved (h : Lived b s) (hm : Moved s s' t pc) : Lived b s' := by
  obtain ⟨l,hcirc,hlen⟩ := h.counts
  refine ⟨fun k => ?_, ⟨l, ?_, hlen.trans hm.active.symm⟩, fun hl k hk => ?_, hm.vmes ▸ h.packed,
    fun he va n hin => ?_⟩
  · rw [(hm.all k).unborn, hm.made]
    exact h.unborn k
  · rw [hm.made]
    exact hcirc.congr fun k _ => (hm.all k).counted
  · rw [(hm.all k).ended]
    refine h.last ?_ k (hm.made ▸ hk)
    obtain ⟨t',ht'⟩ | he := hl
    · exact Or.inl ⟨t', (hm.all t').last ht'⟩
    · exact Or.inr ((hm.mem rfl).mp he)
  · rw [hm.vmes]
    exact h.regions (fun hin => he ((hm.mem rfl).mpr hin)) va n ((hm.mem rfl).mp hin)

theorem Lived.start (h : Lived b s) (hpc : s.pc t = .counting) :
    Lived b ({ s with active := s.active+1 }.goto t .user) := by
  obtain ⟨l,hcirc,hlen⟩ := h.counts
  have hborn : s.pc t ≠ .unborn := by rw [hpc]; nofun
  obtain ⟨hnone,hempty⟩ := h.open_list hborn (by rw [hpc]; rfl)
  refine ⟨h.unborn_update hborn nofun, ⟨t :: l, ?_, congrArg (·+1) hlen⟩, fun hl => ?_, h.packed,
    h.regions⟩
  · exact (hcirc.claim (h.lt hborn) (by rw [hpc]; rfl)).congr fun k _ =>
      apply_update (fun _ => Pc.counted) s.pc t .user k
  · obtain ⟨k,hk⟩ | he := hl
    · have hk : update s.pc t .user k = .last := hk
      exact absurd (last_update hk nofun) (hnone k)
    · exact absurd he hempty

theorem Lived.close (h : Lived b s) (hpc : s.pc t = .closing)
    (hc : s.active = 1 → ∀ t' < s.made, (s.pc t').starting = false) :
    Lived b ({ s with active := s.active-1 }.goto t
      (if s.active-1 = 0 then .last else .freeing)) := by
  obtain ⟨l,hcirc,hlen⟩ := h.counts
  have hborn : s.pc t ≠ .unborn := by rw [hpc]; nofun
  obtain ⟨hnone,hempty⟩ := h.open_list hborn (by rw [hpc]; rfl)
  have hmem : t ∈ l := (hcirc.mem t).mpr ⟨h.lt hborn, by rw [hpc]; rfl⟩
  generalize hnext : (if s.active-1 = 0 then Pc.last else Pc.freeing : Pc ν) = next
  obtain ⟨hended,hcounted,hborn'⟩ : next.ended = true ∧ next.counted = false ∧ next ≠ .unborn := by
    subst hnext
    split <;> exact ⟨rfl, rfl, nofun⟩
  refine ⟨h.unborn_update hborn hborn', ⟨l.erase t, ?_, ?_⟩, fun hl k hk => ?_, h.packed, h.regions⟩
  · refine (hcirc.perm (List.perm_cons_erase hmem)).release.congr fun k _ => ?_
    rw [← hcounted]
    exact apply_update (fun _ => Pc.counted) s.pc t next k
  · rw [List.length_erase_of_mem hmem, hlen]
    rfl
  · change (update s.pc t next k).ended = true
    by_cases heq : k = t
    · rw [heq, update_self, hended]
    rw [update_of_ne heq]
    have hone : s.active = 1 := by
      have hpos := List.length_pos_of_mem hmem
      by_contra hne
      rw [if_neg (by omega)] at hnext
      obtain ⟨k,hk⟩ | he := hl
      · exact hnone k (last_update hk (by rw [← hnext]; nofun))
      · exact hempty he
    -- `t` is the only one that counts, and no one is starting
    obtain hs | hs | hs := Pc.parts (fun hu => Nat.not_le_of_lt hk ((h.unborn k).mp hu))
    · rw [hc hone k hk] at hs
      cases hs
    · obtain ⟨x,rfl⟩ := List.length_eq_one_iff.mp (hlen.trans hone)
      have hkx := List.mem_singleton.mp ((hcirc.mem k).mpr ⟨hk, hs⟩)
      exact absurd (hkx.trans (List.mem_singleton.mp hmem).symm) heq
    · exact hs

theorem Lived.empty (h : Lived b s) (hpc : s.pc t = .last) :
    Lived b (({ s with sharedVmes := [] }.note .empty).goto t .freeing) := by
  obtain ⟨l,hcirc,hlen⟩ := h.counts
  have hall := h.last (Or.inl ⟨t, hpc⟩)
  have hlike : (s.pc t).Like .freeing := hpc ▸ ⟨rfl, rfl, ⟨nofun, nofun⟩, nofun⟩
  exact ⟨fun k => (hlike.all k).unborn.trans (h.unborn k),
    ⟨l, hcirc.congr fun k _ => (hlike.all k).counted, hlen⟩,
    fun _ k hk => (hlike.all k).ended.trans (hall k hk), trivial,
    fun he => absurd List.mem_cons_self he⟩

theorem Lived.create (h : Lived b s) (hpc : s.pc t = .user) :
    Lived b { s.goto s.made .created with made := s.made+1 } := by
  obtain ⟨l,hcirc,hlen⟩ := h.counts
  obtain ⟨hnone,hempty⟩ := h.open_list (t := t) (by rw [hpc]; nofun) (by rw [hpc]; rfl)
  refine ⟨fun k => ?_, ⟨l, hcirc.grow.congr fun k _ =>
    apply_update (fun _ => Pc.counted) s.pc s.made .created k, hlen⟩, fun hl => ?_, h.packed,
    h.regions⟩
  · change update s.pc s.made .created k = .unborn ↔ s.made+1 ≤ k
    by_cases heq : k = s.made
    · rw [heq, update_self]
      exact ⟨nofun, fun h => absurd h (Nat.not_succ_le_self _)⟩
    · rw [update_of_ne heq, h.unborn]
      omega
  · obtain ⟨k,hk⟩ | he := hl
    · have hk : update s.pc s.made .created k = .last := hk
      exact absurd (last_update hk nofun) (hnone k)
    · exact absurd he hempty

theorem Lived.region (h : Lived b s) {start length offset : Nat} {file : Option ν}
    {vmes : List (Vme ν)} (hs : insertFrom sharedLimit length file offset true
      (sharedBase b.hhdmOffset) s.sharedVmes = some (start, vmes)) :
    Lived b ({ s with sharedVmes := vmes }.note (.region start length)) := by
  have hlimit : sharedLimit < 2^64 := by decide
  obtain ⟨hp,hend,-,-,hstart,-,-,hkept⟩ := h.packed.insert hlimit hs
  have hempty (he : .empty ∈ Event.region start length :: s.log) : .empty ∈ s.log :=
    (List.mem_cons.mp he).resolve_left nofun
  refine ⟨h.unborn, h.counts, fun hl => h.last (hl.imp_right hempty), hp,
    fun he va n hin x hle hlt => ?_⟩
  have hold : .empty ∉ s.log := fun hin => he (List.mem_cons_of_mem _ hin)
  change Mapped vmes x
  obtain heq | hin := List.mem_cons.mp hin
  · cases heq
    have hlo := h.packed.le
    have hx := hstart (by omega)
    exact hp.mapped_iff.mpr (by omega)
  · obtain ⟨vme,hv⟩ := Option.isSome_iff_exists.mp (h.regions hold va n hin x hle hlt)
    exact Option.isSome_of_mem (hkept x vme hv)

theorem Lived.step (h : Lived b s) (ha : s.Settled a)
    (hs : s.step io usable link b a = some s') : Lived b s' := by
  obtain ⟨t,pc,hm⟩ | ⟨t,hpc,rfl⟩ | ⟨t,rfl,hpc,rfl⟩ | ⟨t,hpc,rfl⟩ | ⟨t,hpc,rfl⟩ |
    ⟨t,start,length,offset,file,vmes,hpc,hins,rfl⟩ := step_cases hs
  · exact h.moved hm
  · exact h.start hpc
  · exact h.close hpc (ha hpc)
  · exact h.empty hpc
  · exact h.create hpc
  · exact h.region hins

theorem lived_boot {ram : Frames.Ram} {stock : List Nat} :
    Lived b (Kernel.boot ram stock : Kernel ν) := by
  have hpc (t : Nat) : (Kernel.boot ram stock : Kernel ν).pc t = if t = 0 then .created else .unborn :=
    rfl
  refine ⟨fun t => ?_, ⟨[], ⟨List.nodup_nil, fun t => ?_⟩, rfl⟩, fun hl => ?_, trivial, nofun⟩
  · change _ ↔ 1 ≤ t
    rw [hpc]
    split <;> simp <;> omega
  · rw [hpc]
    split <;> simp [Pc.counted]
  · obtain ⟨t,ht⟩ | he := hl
    · rw [hpc] at ht
      split at ht <;> cases ht
    · cases he

theorem lived_invariant :
    ((sharedMachine io usable link b).under Kernel.Settled).Invariant (Lived b) where
  init := by
    rintro s ⟨ram,stock,-,rfl⟩
    exact lived_boot
  step := by
    rintro s s' h ⟨a,ha,hs⟩
    exact h.step ha hs

theorem insertFrom_ne_nil {limit length offset lo start : Nat} {file : Option ν} {shared : Bool}
    {head vmes : List (Vme ν)}
    (hs : insertFrom limit length file offset shared lo head = some (start, vmes)) : vmes ≠ [] := by
  have hplace {next : List (Vme ν)} {lo start : Nat} {vmes : List (Vme ν)}
      (hs : insertFrom.place limit length file offset shared lo next = some (start, vmes)) :
      vmes ≠ [] := by
    unfold insertFrom.place at hs
    split at hs
    · cases hs
      exact List.cons_ne_nil _ _
    · cases hs
  cases head with
  | nil => exact hplace hs
  | cons next rest =>
    unfold insertFrom at hs
    split at hs
    · exact hplace hs
    · obtain ⟨r,-,heq⟩ := Option.map_eq_some_iff.mp hs
      cases heq
      exact List.cons_ne_nil _ _

/-- In a run in which no thread is starting when the count falls to zero, the list of shared
regions is emptied when all threads have entered `fini_thread`, and a region that `mmap` returned
is found as long as one that was made has not. -/
theorem shared_outlive (ν : Type*) (io : ν → BlockIo) (usable : Nat → Bool)
    (link : List Nat → Nat) (b : Boot) (s : Kernel ν)
    (hr : ((sharedMachine io usable link b).under Kernel.Settled).Reachable s) :
    (∀ a s', s.step io usable link b a = some s' → s.sharedVmes ≠ [] → s'.sharedVmes = [] →
      ∀ t < s.made, (s.pc t).inFini = true) ∧
    (.empty ∈ s.log → ∀ t < s.made, (s.pc t).inFini = true) ∧
    ∀ t < s.made, (s.pc t).inFini = false → ∀ va n, .region va n ∈ s.log →
      ∀ x, va ≤ x → x < va+n → Mapped s.sharedVmes x := by
  have h := lived_invariant.reachable hr
  refine ⟨fun a s' hs hne he => ?_, fun he t ht => Pc.inFini_of_ended (h.last (Or.inr he) t ht),
    fun t ht hfini va n hin x hle hlt => h.regions (fun he => ?_) va n hin x hle hlt⟩
  · obtain ⟨t,pc,hm⟩ | ⟨t,hpc,rfl⟩ | ⟨t,rfl,hpc,rfl⟩ | ⟨t,hpc,rfl⟩ | ⟨t,hpc,rfl⟩ |
      ⟨t,start,length,offset,file,vmes,hpc,hins,rfl⟩ := step_cases hs
    · exact absurd (hm.vmes.symm.trans he) hne
    · exact absurd he hne
    · exact absurd he hne
    · exact fun k hk => Pc.inFini_of_ended (h.last (Or.inl ⟨t, hpc⟩) k hk)
    · exact absurd he hne
    · exact absurd he (insertFrom_ne_nil hins)
  · have hended := Pc.inFini_of_ended (h.last (Or.inr he) t ht)
    rw [hfini] at hended
    cases hended

instance (s : Kernel ν) [DecidableEq ν] : ∀ a, Decidable (s.Settled a)
  | .run t => inferInstanceAs (Decidable (s.pc t = .closing → s.active = 1 →
      ∀ t' < s.made, (s.pc t').starting = false))
  | .create _ | .mmap .. | .fault .. | .store .. | .mapMmio .. | .exit _ =>
    inferInstanceAs (Decidable True)

/-- A thread maps a region, makes another thread, which starts, and exits. -/
def outliveActions : List (Action Empty) :=
  [.run 0, .run 0, .run 0, .mmap 0 0x2000 3 none 0, .create 0, .run 1, .run 1, .run 1, .exit 0,
    .run 0, .run 0]

theorem shared_outlive_creator : Mapped ((smallMachine Empty nofun).run
    (Kernel.boot smallRam smallStock) outliveActions).sharedVmes 0xFFFFFF0008001000 := by
  have hr := smallMachine_reachable nofun Kernel.Settled outliveActions (by decide +kernel)
  obtain ⟨-,-,hregions⟩ := shared_outlive Empty nofun _ _ smallBoot _ hr
  exact hregions 1 (by decide +kernel) (by decide +kernel) 0xFFFFFF0008000000 0x2000
    (by decide +kernel) _ (by decide) (by decide)

/-- The second thread has not run yet when the first one is the last that counts. -/
def earlyActions : List (Action Empty) :=
  [.run 0, .run 0, .run 0, .mmap 0 0x2000 3 none 0, .create 0, .exit 0, .run 0]

theorem emptied_early : ¬∀ s, (smallMachine Empty nofun).system.Reachable s →
    ∀ a s', (smallMachine Empty nofun).step s a = some s' → s.sharedVmes ≠ [] →
      s'.sharedVmes = [] → ∀ t < s.made, (s.pc t).inFini = true := by
  intro hall
  have hr := smallMachine_reachable nofun (fun _ _ => True) earlyActions Machine.allowed_true
  generalize hs : (smallMachine Empty nofun).run (Kernel.boot smallRam smallStock)
    earlyActions = s at hr
  obtain ⟨hpc,hvmes,hmade,hpc'⟩ : s.pc 0 = .last ∧ s.sharedVmes ≠ [] ∧ 1 < s.made ∧
      s.pc 1 = .created := by
    subst hs
    decide +kernel
  have hstep : (smallMachine Empty nofun).step s (.run 0) =
      some ((({ s with sharedVmes := [] } : Kernel Empty).note .empty).goto 0 .freeing) := by
    change Kernel.run _ _ _ _ s 0 = _
    simp only [Kernel.run, hpc]
  have hfini := hall s hr (.run 0) _ hstep hvmes rfl 1 hmade
  rw [hpc'] at hfini
  cases hfini

end NetKernel.SharedMappings
