import NetKernel.Lib.Debts
import NetKernel.Sched.SpinLockSafety

/-! The counters `unlock` keeps: every critical section but the first of its lock is counted
once, however the additions and the loop of `AtomicMax` interleave. -/
namespace NetKernel.SpinLocks
open Function Runs Places Debts

variable {τ L : Type*} [DecidableEq L]

/-- How long the sections lasted that are counted: all but the first of each lock. -/
def counted : List (Section L) → List UInt64
  | [] => []
  | x :: xs =>
    if x.lock ∈ xs.map Section.lock then (x.finish-x.start) :: counted xs else counted xs


/-- The lock whose `count_it` a thread has set and not given up yet. -/
def Pc.marking : Pc L → Option L
  | .readStart l _ | .readEnd l _ _ | .readWas l _ _ _ | .release l _ _ _ _ => some l
  | _ => none

/-- Whether the section a thread is ending will be counted, as it has read it. -/
def Pc.counting : Pc L → Option (L × Bool)
  | .setCountIt l c | .readStart l c | .readEnd l c _ | .readWas l c _ _ | .release l c _ _ _ =>
    some (l, c)
  | _ => none

/-- What a thread has still to add to the total. -/
def Pc.owesTotal : Pc L → Nat
  | .restore true start finish _ => (finish-start).toNat
  | .addTotal elapsed => elapsed.toNat
  | _ => 0

def Pc.owesCount : Pc L → Nat
  | .restore true _ _ _ | .addTotal _ | .addCount _ => 1
  | _ => 0

/-- The time a thread has still to compare with the maximum. -/
def Pc.offers : Pc L → Option UInt64
  | .restore true start finish _ => some (finish-start)
  | .addTotal elapsed | .addCount elapsed | .readMax elapsed | .swapMax elapsed _ => some elapsed
  | _ => none

def Pc.swapping : Pc L → Option (UInt64 × UInt64)
  | .swapMax elapsed old => some (elapsed, old)
  | _ => none

def Pc.due (pc : Pc L) : Nat × Nat × Option UInt64 := (pc.owesTotal, pc.owesCount, pc.offers)

/-- What a stage says about the counters and the sections that have ended. -/
def Pc.Knows (stats : Stats) (ended : List (Section L)) (pc : Pc L) : Prop :=
  (∀ l c, pc.counting = some (l, c) → (c = true ↔ l ∈ ended.map Section.lock)) ∧
  (∀ elapsed, pc.offers = some elapsed → elapsed ∈ counted ended) ∧
  ∀ elapsed old, pc = .swapMax elapsed old → old < elapsed ∧ old ≤ stats.maxCycles

structure Tallied (s : State τ L) : Prop where
  inv : Inv s
  marked : ∀ l, (s.locks l).countIt = true ↔
    l ∈ s.ended.map Section.lock ∨ ∃ t, (s.threads t).pc.marking = some l
  knows : ∀ t, (s.threads t).pc.Knows s.stats s.ended
  total : Balanced (2^64) (fun t => (s.threads t).pc.owesTotal) s.stats.totalCycles.toNat
    ((counted s.ended).map UInt64.toNat).sum
  number : Balanced (2^64) (fun t => (s.threads t).pc.owesCount) s.stats.sectionCount.toNat
    (counted s.ended).length
  covered : ∀ elapsed ∈ counted s.ended, elapsed ≤ s.stats.maxCycles ∨
    ∃ t, (s.threads t).pc.offers = some elapsed
  attained : s.stats.maxCycles = 0 ∨ s.stats.maxCycles ∈ counted s.ended

variable {s s' : State τ L} {t u : τ} {l : L} {th : Thread L} {x : Section L}

/-! Who holds the lock a stage is about. -/

omit [DecidableEq L] in
theorem Inv.counting_mem (h : Inv s) {c : Bool} (hc : (s.threads u).pc.counting = some (l, c)) :
    l ∈ (s.threads u).locks := by
  have hst := h.stage u
  unfold Stage at hst
  cases hpc : (s.threads u).pc <;> rw [hpc] at hst hc <;> cases hc
  · exact hst.1
  · exact hst.1
  · obtain ⟨⟨was,hmem⟩,-⟩ := hst
    exact mem_locks hmem
  · obtain ⟨⟨was,hmem⟩,-⟩ := hst
    exact mem_locks hmem
  · exact mem_locks hst.1

omit [DecidableEq L] in
theorem counting_of_marking {pc : Pc L} (h : pc.marking = some l) :
    ∃ c, pc.counting = some (l, c) := by
  unfold Pc.marking at h
  split at h <;> cases h <;> exact ⟨_, rfl⟩

omit [DecidableEq L] in
theorem Inv.marking_unique (h : Inv s) {c : Bool} (hl : l ∈ (s.threads t).locks)
    (hc : (s.threads u).pc.counting = some (l, c)) : u = t :=
  h.parts.unique l u t (h.counting_mem hc) hl

theorem Inv.filter_lock (h : Inv s) {k : Holding L} (hk : k ∈ (s.threads t).held) :
    (s.threads t).held.filter (·.lock = k.lock) = [k] := by
  have hn := h.parts.nodup t
  obtain ⟨before,after,hsplit⟩ := List.append_of_mem hk
  simp only [Thread.locks, hsplit, List.map_append, List.map_cons] at hn
  obtain ⟨-,hafter,hapart⟩ := List.nodup_append.mp hn
  have hbefore (y : Holding L) (hy : y ∈ before) : ¬ y.lock = k.lock :=
    hapart _ (List.mem_map_of_mem hy) _ List.mem_cons_self
  have hrest (y : Holding L) (hy : y ∈ after) : ¬ y.lock = k.lock := fun heq =>
    (List.nodup_cons.mp hafter).1 (heq ▸ List.mem_map_of_mem hy)
  rw [hsplit, List.filter_append, List.filter_cons_of_pos (by simp),
    List.filter_eq_nil_iff.mpr fun y hy => by simpa using hbefore y hy,
    List.filter_eq_nil_iff.mpr fun y hy => by simpa using hrest y hy]
  rfl

/-! The steps. -/

theorem mem_counted_cons {elapsed : UInt64} {ended : List (Section L)}
    (h : elapsed ∈ counted ended) : elapsed ∈ counted (x :: ended) := by
  rw [counted]
  split
  · exact List.mem_cons_of_mem _ h
  · exact h

variable [DecidableEq τ]

omit [DecidableEq L] in
theorem view_update {β : Type*} (view : Pc L → β) (threads : τ → Thread L) (t : τ)
    (th : Thread L) : (fun u => view (update threads t th u).pc) =
      update (fun u => view (threads u).pc) t (view th.pc) := by
  funext u
  by_cases hu : u = t
  · subst hu
    simp only [update_self]
  · simp only [update_of_ne hu]

omit [DecidableEq L] in
theorem view_same {β : Type*} (view : Pc L → β) (hthreads : s'.threads = update s.threads t th)
    (hview : view th.pc = view (s.threads t).pc) :
    (fun u => view (s'.threads u).pc) = fun u => view (s.threads u).pc := by
  rw [hthreads, view_update, hview]
  exact update_eq_self t (fun u => view (s.threads u).pc)

theorem knows_count {stats : Stats} {ended : List (Section L)} {pc : Pc L}
    (hk : ∀ l c, pc.counting = some (l, c) → (c = true ↔ l ∈ ended.map Section.lock))
    (ho : pc.offers = none) (hs : pc.swapping = none) : pc.Knows stats ended := by
  refine ⟨hk, fun elapsed h => ?_, ?_⟩
  · rw [ho] at h
    cases h
  · rintro elapsed old rfl
    cases hs

theorem knows_offer {stats : Stats} {ended : List (Section L)} {pc : Pc L}
    (hc : pc.counting = none)
    (hk : ∀ elapsed, pc.offers = some elapsed → elapsed ∈ counted ended)
    (hs : pc.swapping = none) : pc.Knows stats ended := by
  refine ⟨fun l c h => ?_, hk, ?_⟩
  · rw [hc] at h
    cases h
  · rintro elapsed old rfl
    cases hs

theorem knows_nothing {stats : Stats} {ended : List (Section L)} {pc : Pc L}
    (hc : pc.counting = none) (ho : pc.offers = none) (hs : pc.swapping = none) :
    pc.Knows stats ended := by
  refine knows_count (fun l c h => ?_) ho hs
  rw [hc] at h
  cases h

theorem knows_update (h : Tallied s) (hthreads : s'.threads = update s.threads t th)
    (hstats : s'.stats = s.stats) (hended : s'.ended = s.ended)
    (hknows : th.pc.Knows s.stats s.ended) : ∀ u, (s'.threads u).pc.Knows s'.stats s'.ended := by
  intro u
  rw [hthreads, hstats, hended]
  by_cases hu : u = t
  · subst hu
    rw [update_self]
    exact hknows
  · rw [update_of_ne hu]
    exact h.knows u

/-- A step that leaves the counters, and what its thread has still to do to them, as they are. -/
theorem Tallied.keep (h : Tallied s) (hi : Inv s')
    (hthreads : s'.threads = update s.threads t th) (hstats : s'.stats = s.stats)
    (hended : s'.ended = s.ended)
    (hmarked : ∀ l, (s'.locks l).countIt = true ↔
      l ∈ s.ended.map Section.lock ∨ ∃ u, (s'.threads u).pc.marking = some l)
    (hdue : th.pc.due = (s.threads t).pc.due) (hknows : th.pc.Knows s.stats s.ended) :
    Tallied s' := by
  have htotal := congrArg (fun due => due.1) hdue
  have hnumber := congrArg (fun due => due.2.1) hdue
  have ho := view_same Pc.offers hthreads (congrArg (fun due => due.2.2) hdue)
  refine ⟨hi, hended ▸ hmarked, knows_update h hthreads hstats hended hknows, ?_, ?_,
    fun elapsed he => ?_, ?_⟩
  · rw [view_same Pc.owesTotal hthreads htotal, hstats, hended]
    exact h.total
  · rw [view_same Pc.owesCount hthreads hnumber, hstats, hended]
    exact h.number
  · rw [hended] at he
    rw [hstats]
    refine (h.covered elapsed he).imp_right ?_
    rintro ⟨u,hu⟩
    exact ⟨u, (congrFun ho u).trans hu⟩
  · rw [hstats, hended]
    exact h.attained

theorem Tallied.same (h : Tallied s) (hi : Inv s')
    (hthreads : s'.threads = update s.threads t th) (hstats : s'.stats = s.stats)
    (hended : s'.ended = s.ended) (hcount : ∀ l, (s'.locks l).countIt = (s.locks l).countIt)
    (hmark : th.pc.marking = (s.threads t).pc.marking)
    (hdue : th.pc.due = (s.threads t).pc.due) (hknows : th.pc.Knows s.stats s.ended) :
    Tallied s' := by
  refine h.keep hi hthreads hstats hended (fun l => ?_) hdue hknows
  have hm := view_same Pc.marking hthreads hmark
  rw [hcount, h.marked]
  exact or_congr_right (exists_congr fun u => by rw [congrFun hm u])

theorem Tallied.setCountIt {c : Bool} {now : UInt64} (h : Tallied s)
    (hpc : (s.threads t).pc = .setCountIt l c) : Tallied (s.advance t now) := by
  have hi := h.inv.advance t now
  have hk := h.knows t
  rw [hpc] at hk
  rw [State.advance, hpc] at hi ⊢
  refine h.keep hi rfl rfl rfl (fun k => ?_) (by rw [hpc]; rfl) (knows_count hk.1 rfl rfl)
  change (update s.locks l _ k).countIt = true ↔
    _ ∨ ∃ u, (update s.threads t { s.threads t with pc := .readStart l c } u).pc.marking = some k
  by_cases hkl : k = l
  · subst hkl
    rw [update_self]
    refine iff_of_true rfl (.inr ⟨t, ?_⟩)
    rw [update_self]
    rfl
  · rw [update_of_ne hkl, h.marked]
    refine or_congr_right (exists_congr fun u => ?_)
    by_cases hu : u = t
    · subst hu
      rw [update_self, hpc]
      exact iff_of_false (fun h => by cases h) fun heq => hkl (Option.some_inj.mp heq).symm
    · rw [update_of_ne hu]

/-- The sum of what is counted takes in the section that ends if it is not the first. -/
theorem counted_cons {c : Bool} {ended : List (Section L)}
    (hc : c = true ↔ x.lock ∈ ended.map Section.lock) :
    counted (x :: ended) = if c then (x.finish-x.start) :: counted ended else counted ended := by
  cases c with
  | false => exact if_neg fun hx => Bool.false_ne_true (hc.mpr hx)
  | true => exact if_pos (hc.mp rfl)

theorem Tallied.release {c : Bool} {start finish now : UInt64} {was : Bool} (h : Tallied s)
    (hpc : (s.threads t).pc = .release l c start finish was) : Tallied (s.advance t now) := by
  have hi := h.inv.advance t now
  have hst := h.inv.stage t
  rw [Stage, hpc] at hst
  obtain ⟨hmem,-⟩ := hst
  have hl : l ∈ (s.threads t).locks := mem_locks hmem
  have hc : c = true ↔ l ∈ s.ended.map Section.lock := (h.knows t).1 l c (by rw [hpc]; rfl)
  have hcounted := counted_cons (x := ⟨l, start, finish⟩) hc
  have hfilter := h.inv.filter_lock hmem
  rw [State.advance, hpc] at hi ⊢
  dsimp only at hi hfilter ⊢
  rw [hfilter] at hi ⊢
  generalize hth : ({ s.threads t with
    pc := .restore c start finish was
    held := (s.threads t).held.filter (·.lock ≠ l) } : Thread L) = th at hi ⊢
  have hthpc : th.pc = .restore c start finish was := by rw [← hth]
  refine ⟨hi, fun k => ?_, fun u => ?_, ?_, ?_, fun elapsed he => ?_, ?_⟩
  · change (update s.locks l { s.locks l with taken := false } k).countIt = true ↔
      k ∈ l :: s.ended.map Section.lock ∨ ∃ u, (update s.threads t th u).pc.marking = some k
    by_cases hkl : k = l
    · subst hkl
      rw [update_self]
      exact iff_of_true ((h.marked k).mpr (.inr ⟨t, by rw [hpc]; rfl⟩)) (.inl List.mem_cons_self)
    · rw [update_of_ne hkl, h.marked, List.mem_cons, or_iff_right hkl]
      refine or_congr_right (exists_congr fun u => ?_)
      by_cases hu : u = t
      · subst hu
        rw [update_self, hthpc, hpc]
        exact iff_of_false (fun heq => hkl (Option.some_inj.mp heq).symm) fun h => by cases h
      · rw [update_of_ne hu]
  · change (update s.threads t th u).pc.Knows s.stats (⟨l, start, finish⟩ :: s.ended)
    by_cases hu : u = t
    · subst hu
      rw [update_self, hthpc]
      refine knows_offer rfl (fun elapsed he => ?_) rfl
      cases c with
      | false => cases he
      | true =>
        obtain rfl := Option.some_inj.mp he
        rw [hcounted]
        exact List.mem_cons_self
    · rw [update_of_ne hu]
      obtain ⟨hk,ho,hswap⟩ := h.knows u
      refine ⟨fun k d hd => ?_, fun elapsed he => mem_counted_cons (ho elapsed he), hswap⟩
      have hne : k ≠ l := fun heq => hu (h.inv.marking_unique hl (heq ▸ hd))
      rw [hk k d hd, List.map_cons, List.mem_cons, or_iff_right hne]
  · change Balanced _ (fun u => (update s.threads t th u).pc.owesTotal)
      s.stats.totalCycles.toNat ((counted (⟨l, start, finish⟩ :: s.ended)).map UInt64.toNat).sum
    rw [view_update, hthpc, hcounted]
    refine h.total.update t _ ?_
    rw [hpc]
    cases c with
    | false => rfl
    | true => exact congrArg (· % 2^64) (Nat.add_assoc ..)
  · change Balanced _ (fun u => (update s.threads t th u).pc.owesCount)
      s.stats.sectionCount.toNat (counted (⟨l, start, finish⟩ :: s.ended)).length
    rw [view_update, hthpc, hcounted]
    refine h.number.update t _ ?_
    rw [hpc]
    cases c with
    | false => rfl
    | true =>
      exact congrArg (· % 2^64)
        (by rw [if_pos rfl, List.length_cons]; exact Nat.add_right_comm ..)
  · change elapsed ∈ counted (⟨l, start, finish⟩ :: s.ended) at he
    change elapsed ≤ s.stats.maxCycles ∨ ∃ u, (update s.threads t th u).pc.offers = some elapsed
    have hold (he : elapsed ∈ counted s.ended) : elapsed ≤ s.stats.maxCycles ∨
        ∃ u, (update s.threads t th u).pc.offers = some elapsed := by
      refine (h.covered elapsed he).imp_right ?_
      rintro ⟨u,hu⟩
      have hne : u ≠ t := by
        rintro rfl
        rw [hpc] at hu
        cases hu
      exact ⟨u, by rw [update_of_ne hne]; exact hu⟩
    rw [hcounted] at he
    cases c with
    | false => exact hold he
    | true =>
      obtain rfl | he := List.mem_cons.mp he
      · exact .inr ⟨t, by rw [update_self, hthpc]; rfl⟩
      · exact hold he
  · exact h.attained.imp_right mem_counted_cons

theorem Tallied.pay (h : Tallied s) (hi : Inv s') (hthreads : s'.threads = update s.threads t th)
    (hlocks : s'.locks = s.locks) (hended : s'.ended = s.ended)
    (hmark : th.pc.marking = (s.threads t).pc.marking)
    (hknows : ∀ u, (s'.threads u).pc.Knows s'.stats s.ended)
    (htotal : s'.stats.totalCycles.toNat+th.pc.owesTotal ≡
      s.stats.totalCycles.toNat+(s.threads t).pc.owesTotal [MOD 2^64])
    (hnumber : s'.stats.sectionCount.toNat+th.pc.owesCount ≡
      s.stats.sectionCount.toNat+(s.threads t).pc.owesCount [MOD 2^64])
    (hmax : s.stats.maxCycles ≤ s'.stats.maxCycles)
    (hoffers : ∀ elapsed, (s.threads t).pc.offers = some elapsed →
      elapsed ≤ s'.stats.maxCycles ∨ th.pc.offers = some elapsed)
    (hattained : s'.stats.maxCycles = 0 ∨ s'.stats.maxCycles ∈ counted s.ended) :
    Tallied s' := by
  have hm := view_same Pc.marking hthreads hmark
  refine ⟨hi, fun l => ?_, fun u => hended ▸ hknows u, ?_, ?_, fun elapsed he => ?_,
    hended ▸ hattained⟩
  · rw [hlocks, hended, h.marked]
    exact or_congr_right (exists_congr fun u => by rw [congrFun hm u])
  · rw [hthreads, view_update, hended]
    exact h.total.update t _ (htotal.add_right _)
  · rw [hthreads, view_update, hended]
    exact h.number.update t _ (hnumber.add_right _)
  · rw [hended] at he
    obtain hle | ⟨u,hu⟩ := h.covered elapsed he
    · exact .inl (UInt64.le_trans hle hmax)
    · by_cases hut : u = t
      · subst hut
        refine (hoffers elapsed hu).imp_right fun ho => ⟨u, ?_⟩
        rw [hthreads, update_self]
        exact ho
      · refine .inr ⟨u, ?_⟩
        rw [hthreads, update_of_ne hut]
        exact hu

theorem add_modEq (x y : UInt64) : (x+y).toNat ≡ x.toNat+y.toNat [MOD 2^64] := by
  rw [UInt64.toNat_add]
  exact Nat.mod_modEq _ _

theorem Tallied.knows_raised (h : Tallied s) {stats : Stats} {pc : Pc L}
    (hmax : s.stats.maxCycles ≤ stats.maxCycles) (hpc : pc.Knows stats s.ended) (u : τ) :
    ((s.goto t pc).threads u).pc.Knows stats s.ended := by
  by_cases hu : u = t
  · subst hu
    rw [State.goto, threads_put_self]
    exact hpc
  · rw [State.goto, threads_put_of_ne hu]
    obtain ⟨hk,ho,hswap⟩ := h.knows u
    refine ⟨hk, ho, fun elapsed old he => ?_⟩
    obtain ⟨hlt,hle⟩ := hswap elapsed old he
    exact ⟨hlt, UInt64.le_trans hle hmax⟩

omit [DecidableEq τ] in
theorem countIt_store {lock : SpinLock} (hlock : lock.countIt = (s.locks l).countIt) (k : L) :
    ((s.store l lock).locks k).countIt = (s.locks k).countIt := by
  change (update s.locks l lock k).countIt = _
  by_cases hk : k = l
  · subst hk
    rw [update_self, hlock]
  · rw [update_of_ne hk]

theorem Tallied.advance {now : UInt64} (h : Tallied s) : Tallied (s.advance t now) := by
  have hi := h.inv.advance t now
  have hk := h.knows t
  cases hpc : (s.threads t).pc with
  | setCountIt l c => exact h.setCountIt hpc
  | release l c start finish was => exact h.release hpc
  | idle =>
    rw [State.advance, hpc]
    exact h
  | readCountIt l =>
    rw [State.advance, hpc] at hi ⊢
    refine h.same hi rfl rfl rfl (fun _ => rfl) (by rw [hpc]; rfl) (by rw [hpc]; rfl)
      (knows_count (fun k c hkc => ?_) rfl rfl)
    cases hkc
    have hst := h.inv.stage t
    rw [Stage, hpc] at hst
    rw [h.marked]
    refine or_iff_left ?_
    rintro ⟨u,hu⟩
    obtain ⟨c,hc⟩ := counting_of_marking hu
    obtain rfl := h.inv.marking_unique hst.1 hc
    rw [hpc] at hu
    cases hu
  | readStart | readEnd | readWas =>
    rw [hpc] at hk
    rw [State.advance, hpc] at hi ⊢
    exact h.same hi rfl rfl rfl (fun _ => rfl) (by rw [hpc]; rfl) (by rw [hpc]; rfl)
      (knows_count hk.1 rfl rfl)
  | disable =>
    rw [State.advance, hpc] at hi ⊢
    exact h.same hi rfl rfl rfl (fun _ => rfl) (by rw [hpc]; rfl) (by rw [hpc]; rfl)
      (knows_nothing rfl rfl rfl)
  | exchange l again was =>
    rw [State.advance, hpc] at hi ⊢
    dsimp only at hi ⊢
    split at hi <;> rename_i htaken
    · rw [if_pos htaken]
      exact h.same hi rfl rfl rfl (fun _ => rfl) (by rw [hpc]; rfl) (by rw [hpc]; rfl)
        (knows_nothing rfl rfl rfl)
    · rw [if_neg htaken]
      exact h.same hi rfl rfl rfl (countIt_store rfl) (by rw [hpc]; rfl) (by rw [hpc]; rfl)
        (knows_nothing rfl rfl rfl)
  | keepWas | keepStart =>
    rw [State.advance, hpc] at hi ⊢
    exact h.same hi rfl rfl rfl (countIt_store rfl) (by rw [hpc]; rfl) (by rw [hpc]; rfl)
      (knows_nothing rfl rfl rfl)
  | giveUp l again was =>
    rw [State.advance, hpc] at hi ⊢
    refine h.same hi rfl rfl rfl (fun _ => rfl) ?_ ?_ ?_
    all_goals cases again
    all_goals first
      | exact knows_nothing rfl rfl rfl
      | rw [hpc]; rfl
  | restore c start finish was =>
    rw [hpc] at hk
    rw [State.advance, hpc] at hi ⊢
    refine h.same hi rfl rfl rfl (fun _ => rfl) ?_ ?_ ?_
    all_goals cases c
    all_goals first
      | exact knows_offer rfl hk.2.1 rfl
      | rw [hpc]; rfl
  | addTotal elapsed =>
    rw [hpc] at hk
    rw [State.advance, hpc] at hi ⊢
    refine h.pay hi rfl rfl rfl (by rw [hpc]; rfl)
      (h.knows_raised (UInt64.le_refl _) (knows_offer rfl hk.2.1 rfl)) ?_ ?_ (UInt64.le_refl _)
      (by rw [hpc]; exact fun _ => .inr) h.attained
    · rw [hpc]
      exact add_modEq _ _
    · rw [hpc]
      rfl
  | addCount elapsed =>
    rw [hpc] at hk
    rw [State.advance, hpc] at hi ⊢
    refine h.pay hi rfl rfl rfl (by rw [hpc]; rfl)
      (h.knows_raised (UInt64.le_refl _) (knows_offer rfl hk.2.1 rfl)) ?_ ?_ (UInt64.le_refl _)
      (by rw [hpc]; exact fun _ => .inr) h.attained
    · rw [hpc]
      rfl
    · rw [hpc]
      exact add_modEq _ 1
  | readMax elapsed =>
    rw [hpc] at hk
    rw [State.advance, hpc] at hi ⊢
    dsimp only at hi ⊢
    split at hi <;> rename_i hle
    · rw [if_pos hle]
      refine h.pay hi rfl rfl rfl (by rw [hpc]; rfl)
        (h.knows_raised (UInt64.le_refl _) (knows_nothing rfl rfl rfl)) (by rw [hpc]; rfl)
        (by rw [hpc]; rfl) (UInt64.le_refl _) (fun x hx => ?_) h.attained
      rw [hpc] at hx
      cases hx
      exact .inl hle
    · rw [if_neg hle]
      refine h.same hi rfl rfl rfl (fun _ => rfl) (by rw [hpc]; rfl) (by rw [hpc]; rfl)
        ⟨(fun _ _ hc => by cases hc), hk.2.1, fun x old hx => ?_⟩
      cases hx
      exact ⟨UInt64.not_le.mp hle, UInt64.le_refl _⟩
  | swapMax elapsed old =>
    rw [hpc] at hk
    obtain ⟨hlt,-⟩ := hk.2.2 elapsed old rfl
    rw [State.advance, hpc] at hi ⊢
    dsimp only at hi ⊢
    split at hi <;> rename_i heq
    · rw [if_pos heq]
      have hmax : s.stats.maxCycles ≤ elapsed := heq ▸ UInt64.le_of_lt hlt
      refine h.pay hi rfl rfl rfl (by rw [hpc]; rfl)
        (h.knows_raised hmax (knows_nothing rfl rfl rfl)) (by rw [hpc]; rfl)
        (by rw [hpc]; rfl) hmax (fun x hx => ?_) (.inr (hk.2.1 elapsed rfl))
      rw [hpc] at hx
      cases hx
      exact .inl (UInt64.le_refl _)
    · rw [if_neg heq]
      exact h.same hi rfl rfl rfl (fun _ => rfl) (by rw [hpc]; rfl) (by rw [hpc]; rfl)
        (knows_offer rfl hk.2.1 rfl)

theorem Tallied.step {a : Action τ L} (h : Tallied s) (hs : step s a = some s') : Tallied s' := by
  have hi := h.inv.step hs
  cases a with
  | tryLock t l | lock t l | unlock t l =>
    obtain ⟨hpc,hs⟩ := Option.ite_none_right_eq_some.mp hs
    cases hs
    refine h.same hi rfl rfl rfl (fun _ => rfl) ?_ ?_ (knows_nothing rfl rfl rfl)
    all_goals first
      | rw [hpc]; rfl
      | rw [hpc.1]; rfl
  | flag t enabled =>
    obtain ⟨hpc,hs⟩ := Option.ite_none_right_eq_some.mp hs
    cases hs
    exact h.same hi rfl rfl rfl (fun _ => rfl) rfl rfl (h.knows t)
  | advance t now =>
    obtain ⟨-,hs⟩ := Option.ite_none_left_eq_some.mp hs
    cases hs
    exact h.advance

theorem tallied_invariant : (machine τ L).system.Invariant Tallied where
  init := by
    rintro s hs
    have hi := (inv_invariant (fun _ _ => True)).init s hs
    obtain ⟨hthreads,hlocks,hstats,hended⟩ := hs
    have hidle (t : τ) : (s.threads t).pc = .idle := by
      obtain ⟨enabled,ht⟩ := hthreads t
      rw [ht]
    refine ⟨hi, fun l => ?_, fun t => ?_, ?_, ?_, ?_, ?_⟩
    · rw [hlocks, hended]
      refine iff_of_false Bool.false_ne_true ?_
      rintro (hl | ⟨t,ht⟩)
      · cases hl
      · rw [hidle] at ht
        cases ht
    · rw [hidle]
      exact knows_nothing rfl rfl rfl
    · refine balanced_start (fun t => by rw [hidle]; rfl) ?_
      rw [hstats, hended]
      rfl
    · refine balanced_start (fun t => by rw [hidle]; rfl) ?_
      rw [hstats, hended]
      rfl
    · rw [hended]
      exact fun _ he => absurd he List.not_mem_nil
    · rw [hstats]
      exact .inl rfl
  step := by
    rintro s s' h ⟨a,-,hs⟩
    exact h.step hs

/-- What the counters say once no thread is on its way from giving up a lock to the end of
`unlock`. -/
structure Settled (s : State τ L) : Prop where
  total : s.stats.totalCycles.toNat = ((counted s.ended).map UInt64.toNat).sum % 2^64
  number : s.stats.sectionCount.toNat = (counted s.ended).length % 2^64
  /-- The maximum is one of the sections counted, and none lasted longer. -/
  greatest : (∀ elapsed ∈ counted s.ended, elapsed ≤ s.stats.maxCycles) ∧
    (s.stats.maxCycles = 0 ∨ s.stats.maxCycles ∈ counted s.ended)

/-- The counters count every critical section but the first of each lock, once; and the loop
of `AtomicMax` goes round again only when another thread has raised the maximum. -/
theorem spin_lock_counters (s : State τ L) (h : (machine τ L).system.Reachable s) :
    ((∀ t, (s.threads t).pc.offers = none) → Settled s) ∧
    ∀ t elapsed old, (s.threads t).pc = .swapMax elapsed old → s.stats.maxCycles ≠ old →
      old < s.stats.maxCycles := by
  have ht := tallied_invariant.reachable h
  refine ⟨fun hnone => ?_, fun t elapsed old hpc hne => ?_⟩
  · have hdone (t : τ) : (s.threads t).pc.owesTotal = 0 ∧ (s.threads t).pc.owesCount = 0 := by
      have hoffers := hnone t
      cases hpc : (s.threads t).pc with
      | restore c =>
        rw [hpc] at hoffers
        cases c with
        | false => exact ⟨rfl, rfl⟩
        | true => cases hoffers
      | addTotal | addCount =>
        rw [hpc] at hoffers
        cases hoffers
      | _ => exact ⟨rfl, rfl⟩
    refine ⟨?_, ?_, fun elapsed he => ?_, ht.attained⟩
    · have htotal := ht.total.settled fun t => (hdone t).1
      rwa [Nat.ModEq, Nat.mod_eq_of_lt (UInt64.toNat_lt _)] at htotal
    · have hnumber := ht.number.settled fun t => (hdone t).2
      rwa [Nat.ModEq, Nat.mod_eq_of_lt (UInt64.toNat_lt _)] at hnumber
    · refine (ht.covered elapsed he).resolve_right ?_
      rintro ⟨t,ho⟩
      rw [hnone] at ho
      cases ho
  · obtain ⟨-,hle⟩ := (ht.knows t).2.2 elapsed old hpc
    exact UInt64.lt_of_le_of_ne hle hne.symm

/-- One thread has read the maximum 7 and is about to raise it to 10 when the other raises it
to 20. -/
def racingActions : List (Action Bool Bool) :=
  contendedActions ++ [.lock false false] ++ List.replicate 4 (.advance false 40) ++
    [.lock true true] ++ List.replicate 4 (.advance true 40) ++ [.unlock false false] ++
    List.replicate 10 (.advance false 50) ++ [.unlock true true] ++
    List.replicate 11 (.advance true 60)

theorem spin_lock_counters_contended :
    (Settled ((machine Bool Bool).run twoThreads contendedActions) ∧
      counted ((machine Bool Bool).run twoThreads contendedActions).ended = [7]) ∧
    (((machine Bool Bool).run twoThreads racingActions).threads false).pc = .swapMax 10 7 ∧
      7 < ((machine Bool Bool).run twoThreads racingActions).stats.maxCycles := by
  have hr (as : List (Action Bool Bool)) :
      (machine Bool Bool).system.Reachable ((machine Bool Bool).run twoThreads as) :=
    Machine.reachable_run (.init twoThreads_init) Machine.allowed_true
  have hpc : (((machine Bool Bool).run twoThreads racingActions).threads false).pc =
      .swapMax 10 7 := by
    decide +kernel
  refine ⟨⟨(spin_lock_counters _ (hr _)).1 (by decide +kernel), by decide +kernel⟩, hpc, ?_⟩
  exact (spin_lock_counters _ (hr _)).2 false 10 7 hpc (by decide +kernel)

end NetKernel.SpinLocks
