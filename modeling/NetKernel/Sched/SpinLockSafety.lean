import NetKernel.Sched.SpinLock

/-! A spin lock has one holder at most and keeps for it what it stored, and while locks are
released in the reverse order and nobody turns interrupts on under a lock, a thread with a lock
has them off. -/
namespace NetKernel.SpinLocks
open Function Runs Places

variable {τ L : Type*} {s : State τ L} {t u : τ} {l : L} {th : Thread L}
  {locks locks' : L → SpinLock}

/-! What a thread can rely on. -/

/-- The lock has what its holder stored. -/
def Kept (locks : L → SpinLock) (h : Holding L) : Prop :=
  (locks h.lock).wasDisabled = h.was ∧ (locks h.lock).start = h.start

/-- A thread taking a lock has yet to fill it in; one giving it up knows what it has read. -/
def Stage (locks : L → SpinLock) (th : Thread L) : Prop :=
  match th.pc with
  | .keepWas l was =>
    ∃ start rest, th.held = ⟨l, was, start⟩ :: rest ∧ ∀ h ∈ rest, Kept locks h
  | .keepStart l => ∃ start rest, th.held = ⟨l, (locks l).wasDisabled, start⟩ :: rest ∧
    ∀ h ∈ rest, Kept locks h
  | .readCountIt l | .setCountIt l _ | .readStart l _ =>
    l ∈ th.locks ∧ ∀ h ∈ th.held, Kept locks h
  | .readEnd l _ start | .readWas l _ start _ =>
    (∃ was, ⟨l, was, start⟩ ∈ th.held) ∧ ∀ h ∈ th.held, Kept locks h
  | .release l _ start _ was => ⟨l, was, start⟩ ∈ th.held ∧ ∀ h ∈ th.held, Kept locks h
  | _ => ∀ h ∈ th.held, Kept locks h

structure Inv (s : State τ L) : Prop where
  parts : Partition (fun t => (s.threads t).locks) fun l => (s.locks l).taken = true
  stage : ∀ t, Stage s.locks (s.threads t)

/-- The fields of the locks a thread relies on. -/
def Agree (locks locks' : L → SpinLock) (th : Thread L) : Prop :=
  ∀ l ∈ th.locks, (locks' l).wasDisabled = (locks l).wasDisabled ∧
    (locks' l).start = (locks l).start

theorem mem_locks {h : Holding L} (hh : h ∈ th.held) : h.lock ∈ th.locks :=
  List.mem_map_of_mem hh

theorem Kept.agree {h : Holding L} (hk : Kept locks h) (ha : Agree locks locks' th)
    (hh : h ∈ th.held) : Kept locks' h := by
  obtain ⟨hwas,hstart⟩ := ha h.lock (mem_locks hh)
  exact ⟨hwas.trans hk.1, hstart.trans hk.2⟩

theorem Stage.agree (h : Stage locks th) (ha : Agree locks locks' th) : Stage locks' th := by
  have hall (hk : ∀ h ∈ th.held, Kept locks h) : ∀ h ∈ th.held, Kept locks' h :=
    fun h hh => (hk h hh).agree ha hh
  unfold Stage at h ⊢
  split at h
  · obtain ⟨start,rest,hheld,hk⟩ := h
    exact ⟨start, rest, hheld, fun h hh =>
      (hk h hh).agree ha (hheld ▸ List.mem_cons_of_mem _ hh)⟩
  · obtain ⟨start,rest,hheld,hk⟩ := h
    rename_i l _
    have hl : l ∈ th.locks := mem_locks (h := ⟨l, (locks l).wasDisabled, start⟩)
      (hheld ▸ List.mem_cons_self)
    refine ⟨start, rest, ?_, fun h hh => (hk h hh).agree ha (hheld ▸ List.mem_cons_of_mem _ hh)⟩
    rw [hheld, (ha l hl).1]
  all_goals first
    | exact ⟨h.1, hall h.2⟩
    | exact hall h

variable [DecidableEq τ]

/-! One step of one thread. -/

theorem locks_update (threads : τ → Thread L) (t : τ) (th : Thread L) :
    (fun u => (update threads t th u).locks) = update (fun u => (threads u).locks) t th.locks := by
  funext u
  by_cases hu : u = t
  · subst hu
    simp only [update_self]
  · simp only [update_of_ne hu]

theorem Inv.act {s' : State τ L} (h : Inv s) (hthreads : s'.threads = update s.threads t th)
    (hparts : Partition (update (fun u => (s.threads u).locks) t th.locks)
      fun l => (s'.locks l).taken = true)
    (hagree : ∀ u ≠ t, Agree s.locks s'.locks (s.threads u)) (hstage : Stage s'.locks th) :
    Inv s' := by
  refine ⟨?_, fun u => ?_⟩
  · rw [hthreads, locks_update]
    exact hparts
  · rw [hthreads]
    by_cases hu : u = t
    · subst hu
      rw [update_self]
      exact hstage
    · rw [update_of_ne hu]
      exact (h.stage u).agree (hagree u hu)

/-- A step that takes no lock and gives none up, and stores into none but `countIt`. -/
theorem Inv.quiet {s' : State τ L} (h : Inv s) (hthreads : s'.threads = update s.threads t th)
    (hheld : th.held = (s.threads t).held)
    (hlocks : ∀ l, (s'.locks l).taken = (s.locks l).taken ∧
      (s'.locks l).wasDisabled = (s.locks l).wasDisabled ∧ (s'.locks l).start = (s.locks l).start)
    (hstage : Stage s.locks th) : Inv s' := by
  have hagree (th : Thread L) : Agree s.locks s'.locks th := fun l _ => (hlocks l).2
  refine h.act hthreads ?_ (fun u _ => hagree _) (hstage.agree (hagree _))
  rw [Thread.locks, hheld]
  change Partition (update (fun u => (s.threads u).locks) t (s.threads t).locks) _
  rw [update_eq_self]
  exact h.parts.congr fun l => by rw [(hlocks l).1]

theorem Inv.goto {pc : Pc L} (h : Inv s)
    (hstage : Stage s.locks { s.threads t with pc := pc }) : Inv (s.goto t pc) :=
  h.quiet rfl rfl (fun _ => ⟨rfl, rfl, rfl⟩) hstage

variable [DecidableEq L]

omit [DecidableEq τ] in
theorem Inv.agree_store (h : Inv s) (hl : l ∈ (s.threads t).locks) (lock : SpinLock) :
    ∀ u ≠ t, Agree s.locks (s.store l lock).locks (s.threads u) := by
  intro u hu k hk
  have hne : k ≠ l := by
    intro heq
    subst heq
    exact hu (h.parts.unique k u t hk hl)
  change (update s.locks l lock k).wasDisabled = _ ∧ (update s.locks l lock k).start = _
  rw [update_of_ne hne]
  exact ⟨rfl, rfl⟩

theorem kept_store {h : Holding L} (hk : Kept locks h) (hne : h.lock ≠ l) (lock : SpinLock) :
    Kept (update locks l lock) h := by
  unfold Kept
  rw [update_of_ne hne]
  exact hk

theorem Inv.fill {h₀ : Holding L} {rest : List (Holding L)} (h : Inv s) (pc : Pc L)
    (h₁ : Holding L) (lock : SpinLock) (hheld : (s.threads t).held = h₀ :: rest)
    (hlock : h₁.lock = h₀.lock)
    (htaken : lock.taken = (s.locks h₀.lock).taken)
    (hstage : Stage (update s.locks h₀.lock lock) { s.threads t with
      pc := pc
      held := h₁ :: rest }) :
    Inv ((s.store h₀.lock lock).put t { s.threads t with
      pc := pc
      held := h₁ :: rest }) := by
  have hlocks : (s.threads t).locks = h₀.lock :: rest.map Holding.lock := by
    rw [Thread.locks, hheld]
    rfl
  refine h.act rfl ?_ (h.agree_store (hlocks ▸ List.mem_cons_self) lock) hstage
  have hsame : ({ s.threads t with
      pc := pc
      held := h₁ :: rest } : Thread L).locks = (s.threads t).locks := by
    rw [hlocks, Thread.locks, List.map_cons, hlock]
  rw [hsame, update_eq_self]
  refine h.parts.congr fun l => ?_
  change (update s.locks h₀.lock lock l).taken = true ↔ _
  by_cases hl : l = h₀.lock
  · subst hl
    rw [update_self, htaken]
  · rw [update_of_ne hl]

omit [DecidableEq τ] [DecidableEq L] in
theorem Inv.not_mem_rest (h : Inv s) {h₀ : Holding L} {rest : List (Holding L)}
    (hheld : (s.threads t).held = h₀ :: rest) : ∀ h ∈ rest, h.lock ≠ h₀.lock := by
  have hn := h.parts.nodup t
  simp only [Thread.locks, hheld, List.map_cons, List.nodup_cons] at hn
  intro k hk heq
  exact hn.1 (heq ▸ List.mem_map_of_mem hk)

theorem Inv.exchange {again was : Bool} {now : UInt64} (h : Inv s)
    (hpc : (s.threads t).pc = .exchange l again was) : Inv (s.advance t now) := by
  have hst := h.stage t
  rw [Stage, hpc] at hst
  rw [State.advance, hpc]
  dsimp only
  cases htaken : (s.locks l).taken with
  | true => exact h.goto hst
  | false =>
    have hfree : ¬ (s.locks l).taken = true := by rw [htaken]; exact Bool.false_ne_true
    have hnone (u : τ) : l ∉ (s.threads u).locks := fun hu =>
      hfree ((h.parts.live l).mpr ⟨u, hu⟩)
    have hother (u : τ) : Agree s.locks (update s.locks l { s.locks l with taken := true })
        (s.threads u) := by
      intro k hk
      have hne : k ≠ l := fun heq => hnone u (heq ▸ hk)
      rw [update_of_ne hne]
      exact ⟨rfl, rfl⟩
    refine h.act rfl ?_ (fun u _ => hother u) ⟨0, (s.threads t).held, rfl, fun k hk =>
      (hst k hk).agree (hother t) hk⟩
    refine Partition.congr (Partition.perm (h.parts.add (q := t) hfree) fun u => ?_) fun k => ?_
    · by_cases hu : u = t
      · subst hu
        rw [update_self, update_self]
        exact (List.perm_append_singleton _ _).symm
      · rw [update_of_ne hu, update_of_ne hu]
    · change (update s.locks l { s.locks l with taken := true } k).taken = true ↔ _
      by_cases hk : k = l
      · subst hk
        rw [update_self]
        exact iff_of_true rfl (Or.inr rfl)
      · rw [update_of_ne hk]
        exact (or_iff_left hk).symm

theorem locks_filter (held : List (Holding L)) : (held.filter (·.lock ≠ l)).map Holding.lock =
    (held.map Holding.lock).filter (· ≠ l) := by
  rw [List.filter_map]
  rfl

theorem Inv.release {c : Bool} {start finish now : UInt64} {was : Bool} (h : Inv s)
    (hpc : (s.threads t).pc = .release l c start finish was) : Inv (s.advance t now) := by
  have hst := h.stage t
  rw [Stage, hpc] at hst
  obtain ⟨hmem,hall⟩ := hst
  have hl : l ∈ (s.threads t).locks := mem_locks hmem
  rw [State.advance, hpc]
  dsimp only
  refine h.act rfl ?_ (h.agree_store hl _) fun k hk => ?_
  · have hn := h.parts.nodup t
    have hperm : ((s.threads t).locks).Perm (l :: (s.threads t).locks.filter (· ≠ l)) := by
      have hfilter : (s.threads t).locks.filter (· ≠ l) = (s.threads t).locks.erase l := by
        rw [hn.erase_eq_filter]
        exact List.filter_congr fun k _ => by simp [bne, beq_eq_decide]
      rw [hfilter]
      exact List.perm_cons_erase hl
    have hfront : Partition (update (fun u => (s.threads u).locks) t
        (l :: (s.threads t).locks.filter (· ≠ l))) fun l => (s.locks l).taken = true := by
      refine h.parts.perm fun u => ?_
      by_cases hu : u = t
      · subst hu
        rw [update_self]
        exact hperm.symm
      · rw [update_of_ne hu]
    have hrest := hfront.remove (p := t) (update_self ..)
    rw [update_idem] at hrest
    rw [Thread.locks, locks_filter]
    refine hrest.congr fun k => ?_
    change (update s.locks l { s.locks l with taken := false } k).taken = true ↔ _
    by_cases hk : k = l
    · subst hk
      rw [update_self]
      exact iff_of_false Bool.false_ne_true fun hkl => hkl.2 rfl
    · rw [update_of_ne hk]
      exact (and_iff_left hk).symm
  · obtain ⟨hk,hne⟩ := List.mem_filter.mp hk
    exact kept_store (hall k hk) (of_decide_eq_true hne) _

theorem Inv.advance (h : Inv s) (t : τ) (now : UInt64) : Inv (s.advance t now) := by
  have hst := h.stage t
  cases hpc : (s.threads t).pc with
  | exchange l again was => exact h.exchange hpc
  | release l c start finish was => exact h.release hpc
  | idle =>
    rw [State.advance, hpc]
    exact h
  | keepWas l was =>
    rw [Stage, hpc] at hst
    obtain ⟨start,rest,hheld,hrest⟩ := hst
    rw [State.advance, hpc]
    have hfill := h.fill (.keepStart l) ⟨l, was, start⟩
      { s.locks l with wasDisabled := was } hheld rfl rfl
      ⟨start, rest, by rw [update_self], fun k hk =>
        kept_store (hrest k hk) (h.not_mem_rest hheld k hk) _⟩
    rw [← hheld] at hfill
    exact hfill
  | keepStart l =>
    rw [Stage, hpc] at hst
    obtain ⟨start,rest,hheld,hrest⟩ := hst
    rw [State.advance, hpc]
    dsimp only
    rw [hheld]
    refine h.fill .idle ⟨l, (s.locks l).wasDisabled, now⟩
      { s.locks l with start := now } hheld rfl rfl fun k hk => ?_
    obtain rfl | hk := List.mem_cons.mp hk
    · unfold Kept
      rw [update_self]
      exact ⟨rfl, rfl⟩
    · exact kept_store (hrest k hk) (h.not_mem_rest hheld k hk) _
  | setCountIt l c =>
    rw [Stage, hpc] at hst
    rw [State.advance, hpc]
    refine h.quiet rfl rfl (fun k => ?_) hst
    by_cases hk : k = l
    · subst hk
      change (update s.locks k _ k).taken = _ ∧ _
      simp [State.store, State.goto, State.put]
    · simp [State.store, State.goto, State.put, update_of_ne hk]
  | readStart l c =>
    rw [Stage, hpc] at hst
    obtain ⟨hl,hall⟩ := hst
    obtain ⟨k,hk,rfl⟩ := List.mem_map.mp hl
    rw [State.advance, hpc]
    refine h.goto ⟨⟨k.was, ?_⟩, hall⟩
    rw [(hall k hk).2]
    exact hk
  | readWas l c start finish =>
    rw [Stage, hpc] at hst
    obtain ⟨⟨was,hmem⟩,hall⟩ := hst
    rw [State.advance, hpc]
    refine h.goto ⟨?_, hall⟩
    rw [(hall _ hmem).1]
    exact hmem
  | giveUp l again was =>
    rw [Stage, hpc] at hst
    rw [State.advance, hpc]
    refine h.quiet rfl rfl (fun _ => ⟨rfl, rfl, rfl⟩) ?_
    cases again <;> exact hst
  | restore c start finish was =>
    rw [Stage, hpc] at hst
    rw [State.advance, hpc]
    refine h.quiet rfl rfl (fun _ => ⟨rfl, rfl, rfl⟩) ?_
    cases c <;> exact hst
  | readMax elapsed =>
    rw [Stage, hpc] at hst
    rw [State.advance, hpc]
    dsimp only
    split <;> exact h.goto hst
  | swapMax elapsed old =>
    rw [Stage, hpc] at hst
    rw [State.advance, hpc]
    dsimp only
    split
    · exact h.quiet rfl rfl (fun _ => ⟨rfl, rfl, rfl⟩) hst
    · exact h.goto hst
  | disable l again =>
    rw [Stage, hpc] at hst
    rw [State.advance, hpc]
    exact h.quiet rfl rfl (fun _ => ⟨rfl, rfl, rfl⟩) hst
  | readCountIt | readEnd | addTotal | addCount =>
    rw [Stage, hpc] at hst
    rw [State.advance, hpc]
    exact h.quiet rfl rfl (fun _ => ⟨rfl, rfl, rfl⟩) hst

theorem Inv.step {s' : State τ L} {a : Action τ L} (h : Inv s) (hs : step s a = some s') :
    Inv s' := by
  have hidle (t : τ) (hpc : (s.threads t).pc = .idle) :
      ∀ k ∈ (s.threads t).held, Kept s.locks k := by
    have hst := h.stage t
    rwa [Stage, hpc] at hst
  cases a with
  | tryLock t l | lock t l =>
    obtain ⟨hpc,hs⟩ := Option.ite_none_right_eq_some.mp hs
    cases hs
    exact h.goto (hidle t hpc)
  | unlock t l =>
    obtain ⟨⟨hpc,hl⟩,hs⟩ := Option.ite_none_right_eq_some.mp hs
    cases hs
    exact h.goto ⟨hl, hidle t hpc⟩
  | flag t enabled =>
    obtain ⟨hpc,hs⟩ := Option.ite_none_right_eq_some.mp hs
    cases hs
    refine h.quiet rfl rfl (fun _ => ⟨rfl, rfl, rfl⟩) ?_
    rw [Stage, hpc]
    exact hidle t hpc
  | advance t now =>
    obtain ⟨-,hs⟩ := Option.ite_none_left_eq_some.mp hs
    cases hs
    exact h.advance t now

theorem inv_invariant (C : State τ L → Action τ L → Prop) :
    ((machine τ L).under C).Invariant Inv where
  init := by
    rintro s ⟨hthreads,hlocks,-,-⟩
    have hheld (t : τ) : (s.threads t).held = [] ∧ (s.threads t).pc = .idle := by
      obtain ⟨enabled,ht⟩ := hthreads t
      rw [ht]
      exact ⟨rfl, rfl⟩
    have hnil (t : τ) : (s.threads t).locks = [] := by rw [Thread.locks, (hheld t).1]; rfl
    refine ⟨⟨fun t => ?_, fun l t u hl => ?_, fun l => ?_⟩, fun t => ?_⟩
    · rw [hnil]
      exact .nil
    · rw [hnil] at hl
      cases hl
    · rw [hlocks]
      refine iff_of_false Bool.false_ne_true ?_
      rintro ⟨t,hl⟩
      rw [hnil] at hl
      cases hl
    · rw [Stage, (hheld t).2, (hheld t).1]
      exact fun _ h => absurd h List.not_mem_nil
  step := by
    rintro s s' h ⟨a,-,hs⟩
    exact h.step hs

structure Exclusive (s : State τ L) : Prop where
  /-- No lock has two holders. -/
  alone : ∀ t u l, l ∈ (s.threads t).locks → l ∈ (s.threads u).locks → t = u
  /-- A lock is taken while it has a holder. -/
  taken : ∀ l, (s.locks l).taken = true ↔ ∃ t, l ∈ (s.threads t).locks
  /-- `unlock` has read what the holder itself stored when it took the lock. -/
  kept : ∀ t l c start finish was, (s.threads t).pc = .release l c start finish was →
    ⟨l, was, start⟩ ∈ (s.threads t).held

/-- Mutual exclusion, in every interleaving of any number of threads on any locks. -/
theorem spin_lock_exclusive (s : State τ L) (h : (machine τ L).system.Reachable s) :
    Exclusive s := by
  have hi := (inv_invariant _).reachable h
  refine ⟨fun t u l => hi.parts.unique l t u, hi.parts.live, fun t l c start finish was hpc => ?_⟩
  have hst := hi.stage t
  rw [Stage, hpc] at hst
  exact hst.1

theorem spin_lock_exclusive_nested :
    Exclusive ((machine Bool Bool).run twoThreads nestedActions) ∧
    (((machine Bool Bool).run twoThreads nestedActions).threads false).locks = [true, false] ∧
    (((machine Bool Bool).run twoThreads nestedActions).threads true).pc = .disable false true :=
  ⟨spin_lock_exclusive _ (Machine.reachable_run (.init twoThreads_init) Machine.allowed_true),
    by decide +kernel, by decide +kernel⟩

/-! Interrupts. -/

/-- The interrupt flag of a thread outside these calls. -/
def level (outside : Bool) (held : List (Holding L)) : Bool := held.isEmpty && outside

/-- Each lock remembers the flag from before it was taken. -/
def Nested (outside : Bool) : List (Holding L) → Prop
  | [] => True
  | h :: rest => h.was = !level outside rest ∧ Nested outside rest

/-- The interrupt flag at each point of a call, and that the lock given up is the last taken. -/
def Masked (th : Thread L) : Prop :=
  match th.pc with
  | .exchange _ _ was | .giveUp _ _ was | .restore _ _ _ was =>
    th.interrupts = false ∧ was = !level th.outside th.held
  | .readCountIt l | .setCountIt l _ | .readStart l _ | .readEnd l _ _ | .readWas l _ _ _
  | .release l _ _ _ _ =>
    th.interrupts = level th.outside th.held ∧ (th.held.head?.map Holding.lock) = some l
  | _ => th.interrupts = level th.outside th.held

structure Local (th : Thread L) : Prop where
  nested : Nested th.outside th.held
  masked : Masked th

/-- Locks are released in the reverse order, and interrupts are turned on without locks only.
A thread may turn them off at any time, as `finish` does in a system call that returns under a
`LockGuard`. -/
def LastFirst (s : State τ L) : Action τ L → Prop
  | .unlock t l => ((s.threads t).held.head?.map Holding.lock) = some l
  | .flag t enabled => enabled = true → (s.threads t).held = []
  | _ => True

theorem advance_other {now : UInt64} (hu : u ≠ t) : (s.advance t now).threads u = s.threads u := by
  unfold State.advance
  dsimp only
  split <;> (try split) <;> simp only [State.goto, threads_put_of_ne hu, threads_store]

omit [DecidableEq L] in
theorem restored {th : Thread L} {was : Bool}
    (h : th.interrupts = false ∧ was = !level th.outside th.held) :
    (if was then th.interrupts else true) = level th.outside th.held := by
  rw [h.1, h.2]
  cases level th.outside th.held <;> rfl

omit [DecidableEq τ] in
/-- The lock given up is the last taken, and what is left is what there was before it. -/
theorem Inv.filter_head (h : Inv s) {h₀ : Holding L} {rest : List (Holding L)}
    (hheld : (s.threads t).held = h₀ :: rest) :
    (s.threads t).held.filter (·.lock ≠ h₀.lock) = rest := by
  rw [hheld, List.filter_cons_of_neg (by simp)]
  exact List.filter_eq_self.mpr fun k hk => decide_eq_true (h.not_mem_rest hheld k hk)

theorem Local.advance {now : UInt64} (hi : Inv s) (h : Local (s.threads t)) :
    Local ((s.advance t now).threads t) := by
  have hst := hi.stage t
  have hm := h.masked
  have hn := h.nested
  cases hpc : (s.threads t).pc with
  | idle =>
    rw [State.advance, hpc]
    exact h
  | disable l again =>
    rw [Masked, hpc] at hm
    rw [State.advance, hpc]
    simp only [threads_put_self]
    exact ⟨hn, rfl, by rw [hm]⟩
  | exchange l again was =>
    rw [Masked, hpc] at hm
    rw [State.advance, hpc]
    dsimp only
    split
    · simp only [State.goto, threads_put_self]
      exact ⟨hn, hm⟩
    · simp only [threads_put_self]
      exact ⟨⟨hm.2, hn⟩, hm.1⟩
  | keepWas l was =>
    rw [Masked, hpc] at hm
    rw [State.advance, hpc]
    simp only [State.goto, threads_put_self, threads_store]
    exact ⟨hn, hm⟩
  | keepStart l =>
    rw [Masked, hpc] at hm
    rw [State.advance, hpc]
    simp only [threads_put_self]
    cases hheld : (s.threads t).held with
    | nil =>
      rw [hheld] at hm
      exact ⟨trivial, hm⟩
    | cons k rest =>
      rw [hheld] at hm hn
      exact ⟨hn, hm⟩
  | giveUp l again was =>
    rw [Masked, hpc] at hm
    rw [State.advance, hpc]
    simp only [threads_put_self]
    refine ⟨hn, ?_⟩
    cases again <;> exact restored hm
  | restore c start finish was =>
    rw [Masked, hpc] at hm
    rw [State.advance, hpc]
    simp only [threads_put_self]
    refine ⟨hn, ?_⟩
    cases c <;> exact restored hm
  | release l c start finish was =>
    rw [Masked, hpc] at hm
    rw [State.advance, hpc]
    rw [Stage, hpc] at hst
    simp only [threads_put_self]
    obtain ⟨hint,hhead⟩ := hm
    cases hheld : (s.threads t).held with
    | nil =>
      rw [hheld] at hhead
      cases hhead
    | cons k rest =>
      rw [hheld] at hhead hn hst hint
      obtain rfl : k.lock = l := Option.some_inj.mp hhead
      have hrest := hi.filter_head hheld
      rw [hheld] at hrest
      rw [hrest]
      have hwas : was = k.was := by
        obtain heq | hmem := List.mem_cons.mp hst.1
        · rw [← heq]
        · exact (hi.not_mem_rest hheld _ hmem rfl).elim
      exact ⟨hn.2, hint, hwas.trans hn.1⟩
  | readCountIt | setCountIt | readStart | readEnd | readWas =>
    rw [Masked, hpc] at hm
    rw [State.advance, hpc]
    simp only [State.goto, threads_put_self, threads_store]
    exact ⟨hn, hm⟩
  | addTotal | addCount =>
    rw [Masked, hpc] at hm
    rw [State.advance, hpc]
    simp only [State.goto, threads_put_self]
    exact ⟨hn, hm⟩
  | readMax elapsed =>
    rw [Masked, hpc] at hm
    rw [State.advance, hpc]
    dsimp only
    split <;>
    · simp only [State.goto, threads_put_self]
      exact ⟨hn, hm⟩
  | swapMax elapsed old =>
    rw [Masked, hpc] at hm
    rw [State.advance, hpc]
    dsimp only
    split <;>
    · simp only [State.goto, threads_put_self]
      exact ⟨hn, hm⟩

omit [DecidableEq L] in
theorem local_put {th : Thread L} (h : ∀ u, Local (s.threads u)) (ht : Local th) (u : τ) :
    Local ((s.put t th).threads u) := by
  by_cases hu : u = t
  · subst hu
    rw [threads_put_self]
    exact ht
  · rw [threads_put_of_ne hu]
    exact h u

theorem local_invariant :
    ((machine τ L).under LastFirst).Invariant fun s => Inv s ∧ ∀ t, Local (s.threads t) where
  init := by
    intro s h
    refine ⟨(inv_invariant _).init s h, fun t => ?_⟩
    obtain ⟨enabled,ht⟩ := h.1 t
    rw [ht]
    refine ⟨trivial, ?_⟩
    exact (Bool.true_and _).symm
  step := by
    rintro s s' ⟨hi,h⟩ ⟨a,hfirst,hs⟩
    refine ⟨hi.step hs, ?_⟩
    have hidle (t : τ) (hpc : (s.threads t).pc = .idle) :
        (s.threads t).interrupts = level (s.threads t).outside (s.threads t).held := by
      have hm := (h t).masked
      rwa [Masked, hpc] at hm
    cases a with
    | tryLock t l | lock t l =>
      obtain ⟨hpc,hs⟩ := Option.ite_none_right_eq_some.mp hs
      cases hs
      exact local_put h ⟨(h t).nested, hidle t hpc⟩
    | unlock t l =>
      obtain ⟨⟨hpc,-⟩,hs⟩ := Option.ite_none_right_eq_some.mp hs
      cases hs
      exact local_put h ⟨(h t).nested, hidle t hpc, hfirst⟩
    | flag t enabled =>
      obtain ⟨hpc,hs⟩ := Option.ite_none_right_eq_some.mp hs
      cases hs
      cases hheld : (s.threads t).held with
      | nil =>
        refine local_put h ⟨?_, ?_⟩
        · simp only [hheld]
          trivial
        · rw [Masked]
          simp only [hpc, hheld, level]
          rfl
      | cons k rest =>
        have hoff : enabled = false := by
          cases enabled with
          | false => rfl
          | true => exact absurd (hheld.symm.trans (hfirst rfl)) (List.cons_ne_nil k rest)
        have hn := (h t).nested
        rw [hheld] at hn
        refine local_put h ⟨?_, ?_⟩
        · simp only [hheld, if_neg (List.cons_ne_nil k rest)]
          exact hn
        · rw [Masked]
          simp only [hpc, hheld, hoff, level]
          rfl
    | advance t now =>
      obtain ⟨-,hs⟩ := Option.ite_none_left_eq_some.mp hs
      cases hs
      intro u
      by_cases hu : u = t
      · subst hu
        exact (h u).advance hi
      · rw [advance_other hu]
        exact h u

/-- While locks are released in the reverse order and no thread turns interrupts on under a
lock, a thread with a lock has interrupts off, and one that has given up its last finds them as
it last set them without a lock. -/
theorem interrupts_off (s : State τ L) (h : ((machine τ L).under LastFirst).Reachable s) (t : τ) :
    ((s.threads t).held ≠ [] → (s.threads t).interrupts = false) ∧
    ((s.threads t).pc = .idle → (s.threads t).held = [] →
      (s.threads t).interrupts = (s.threads t).outside) := by
  have hm := (local_invariant.reachable h).2 t |>.masked
  refine ⟨fun hheld => ?_, fun hpc hheld => ?_⟩
  · have hlevel : level (s.threads t).outside (s.threads t).held = false := by
      cases hcase : (s.threads t).held with
      | nil => exact absurd hcase hheld
      | cons => rfl
    unfold Masked at hm
    split at hm
    all_goals first
      | exact hm.1
      | exact hm.1.trans hlevel
      | exact hm.trans hlevel
  · rw [Masked, hpc, hheld] at hm
    exact hm

instance (s : State τ L) (a : Action τ L) : Decidable (LastFirst s a) :=
  match a with
  | .unlock t l => inferInstanceAs (Decidable ((s.threads t).held.head?.map Holding.lock = some l))
  | .flag t enabled => inferInstanceAs (Decidable (enabled = true → (s.threads t).held = []))
  | .tryLock _ _ | .lock _ _ | .advance _ _ => .isTrue trivial

/-- A thread with two locks turns interrupts off and gives both locks up. -/
def guardedActions : List (Action Bool Bool) :=
  nestedActions ++ [.flag false false, .unlock false true] ++
    List.replicate 7 (.advance false 15) ++ [.unlock false false] ++
    List.replicate 7 (.advance false 20)

theorem interrupts_off_guarded :
    (((machine Bool Bool).run twoThreads nestedActions).threads false).interrupts = false ∧
    (((machine Bool Bool).run twoThreads guardedActions).threads false).interrupts = true := by
  have hrun (as : List (Action Bool Bool)) (ha : (machine Bool Bool).Allowed LastFirst twoThreads as) :
      ((machine Bool Bool).under LastFirst).Reachable ((machine Bool Bool).run twoThreads as) :=
    Machine.reachable_run (.init twoThreads_init) ha
  have hnested := hrun nestedActions (by decide +kernel)
  have hguarded := hrun guardedActions (by decide +kernel)
  refine ⟨(interrupts_off _ hnested false).1 (by decide +kernel), ?_⟩
  rw [(interrupts_off _ hguarded false).2 (by decide +kernel) (by decide +kernel)]
  decide +kernel

end NetKernel.SpinLocks
