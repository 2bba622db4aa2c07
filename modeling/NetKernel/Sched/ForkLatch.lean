import NetKernel.Lib.Runs

/-! The `CountDownLatch` of a `fork`, which lies in the frame of the parent's call: `up` and
`sync` by the parent, `down` by the child, and the `post_switch` of the thread that the parent
switches to, one access to the latch at a time. -/
namespace NetKernel.ForkLatch
open Function Runs

/-- Before an access of `SpinLock::lock`. -/
inductive Locking where
  | exchange
  | keepWas
  | keepStart
deriving DecidableEq, Repr

/-- Before an access of `SpinLock::unlock` to the lock itself. -/
inductive Unlocking where
  | readCountIt
  | setCountIt
  | readStart
  | readWas
  | release
deriving DecidableEq, Repr

/-- The parent in `up`, `Thread::create`, `sync` and `is_zero.wait`. -/
inductive Parent where
  | up (l : Locking)
  | addCount
  | upUnlock (u : Unlocking)
  | create
  | sync (l : Locking)
  | check
  | readEpoch
  | waitUnlock (u : Unlocking)
  | pick
  | asleep
  | syncUnlock (u : Unlocking)
  | leave
  | returned
deriving DecidableEq, Repr

/-- The child in `VMM::fork_from`, `down` and `notify_all`. -/
inductive Child where
  | unborn
  | copy (page : Nat)
  | down (l : Locking)
  | readCount
  | subCount
  | takeAll
  | nextEpoch
  | notifyUnlock (u : Unlocking)
  | wake
  | downUnlock (u : Unlocking)
  | resumed
deriving DecidableEq, Repr

/-- `post_switch` on behalf of the parent. -/
inductive Poster where
  | idle
  | lock (l : Locking)
  | checkEpoch
  | park
  | parkUnlock (u : Unlocking)
  | readyUnlock (u : Unlocking)
  | readyAdd
deriving DecidableEq, Repr

/-- `waiting` tells that the parent is in `is_zero.waiting`, `woken` that it is in the list that
the child has taken from there. `image` has the parent's pages and `origin` what they were when
it called `fork`. -/
structure State (α : Type*) where
  taken : Bool
  count : UInt64
  epoch : UInt64
  waiting : Bool
  condEpoch : UInt64
  woken : Bool
  parent : Parent
  child : Child
  poster : Poster
  image : Nat → α
  copy : Nat → α
  origin : Nat → α

variable {α : Type*}

/-- An access of `lock`; the loop of `lock` tries `exchange` again. -/
def State.lock (s : State α) (l : Locking) (move : Locking → State α → State α)
    (done : State α → State α) : State α :=
  match l with
  | .exchange => if s.taken then s else move .keepWas { s with taken := true }
  | .keepWas => move .keepStart s
  | .keepStart => done s

def State.unlock (s : State α) (u : Unlocking) (move : Unlocking → State α → State α)
    (done : State α → State α) : State α :=
  match u with
  | .readCountIt => move .setCountIt s
  | .setCountIt => move .readStart s
  | .readStart => move .readWas s
  | .readWas => move .release s
  | .release => done { s with taken := false }

def State.parentTo (s : State α) (pc : Parent) : State α := { s with parent := pc }
def State.childTo (s : State α) (pc : Child) : State α := { s with child := pc }
def State.posterTo (s : State α) (pc : Poster) : State α := { s with poster := pc }

/-- The parent's next step; `found` tells whether the ready queue has a thread. -/
def State.parentStep (s : State α) (found : Bool) : Option (State α) :=
  match s.parent with
  | .up l => some (s.lock l (fun l s => s.parentTo (.up l)) (·.parentTo .addCount))
  | .addCount => some { s with count := s.count+1, parent := .upUnlock .readCountIt }
  | .upUnlock u => some (s.unlock u (fun u s => s.parentTo (.upUnlock u)) (·.parentTo .create))
  | .create => some { s with child := .copy 0, parent := .sync .exchange }
  | .sync l => some (s.lock l (fun l s => s.parentTo (.sync l)) (·.parentTo .check))
  | .check => some (s.parentTo (if s.count = 0 then .syncUnlock .readCountIt else .readEpoch))
  | .readEpoch => some { s with condEpoch := s.epoch, parent := .waitUnlock .readCountIt }
  | .waitUnlock u => some (s.unlock u (fun u s => s.parentTo (.waitUnlock u)) (·.parentTo .pick))
  | .pick =>
    if found then some { s with parent := .asleep, poster := .lock .exchange }
    else some (s.parentTo (.sync .exchange))
  | .syncUnlock u =>
    some (s.unlock u (fun u s => s.parentTo (.syncUnlock u)) (·.parentTo .leave))
  | .leave => some (s.parentTo .returned)
  | .asleep | .returned => none

/-- The child's next step, over `pages` pages; `none` also for its assertion. -/
def State.childStep (pages : Nat) (s : State α) : Option (State α) :=
  match s.child with
  | .copy page =>
    if page < pages then
      some { s with copy := update s.copy page (s.image page), child := .copy (page+1) }
    else some (s.childTo (.down .exchange))
  | .down l => some (s.lock l (fun l s => s.childTo (.down l)) (·.childTo .readCount))
  | .readCount => if s.count = 0 then none else some (s.childTo .subCount)
  | .subCount => some { s with
      count := s.count-1
      child := if s.count-1 = 0 then .takeAll else .downUnlock .readCountIt }
  | .takeAll => some { s with woken := s.waiting, waiting := false, child := .nextEpoch }
  | .nextEpoch => some { s with epoch := s.epoch+1, child := .notifyUnlock .readCountIt }
  | .notifyUnlock u =>
    some (s.unlock u (fun u s => s.childTo (.notifyUnlock u)) (·.childTo .wake))
  | .wake =>
    if s.woken then some { s with woken := false, parent := .sync .exchange, child := .resumed }
    else some (s.childTo .resumed)
  | .downUnlock u =>
    some (s.unlock u (fun u s => s.childTo (.downUnlock u)) (·.childTo .resumed))
  | .unborn | .resumed => none

def State.posterStep (s : State α) : Option (State α) :=
  match s.poster with
  | .lock l => some (s.lock l (fun l s => s.posterTo (.lock l)) (·.posterTo .checkEpoch))
  | .checkEpoch =>
    some (s.posterTo (if s.epoch = s.condEpoch then .park else .readyUnlock .readCountIt))
  | .park => some { s with waiting := true, poster := .parkUnlock .readCountIt }
  | .parkUnlock u => some (s.unlock u (fun u s => s.posterTo (.parkUnlock u)) (·.posterTo .idle))
  | .readyUnlock u =>
    some (s.unlock u (fun u s => s.posterTo (.readyUnlock u)) (·.posterTo .readyAdd))
  | .readyAdd => some { s with parent := .sync .exchange, poster := .idle }
  | .idle => none

inductive Action (α : Type*) where
  | parent (found : Bool)
  | child
  | poster
  | write (page : Nat) (x : α)

/-- The parent's own code, which changes its memory, goes on after `sync`. -/
def step (pages : Nat) (s : State α) : Action α → Option (State α)
  | .parent found => s.parentStep found
  | .child => s.childStep pages
  | .poster => s.posterStep
  | .write page x =>
    if s.parent = .returned then some { s with image := update s.image page x } else none

/-- A new latch, in the call of `fork`. -/
def machine (α : Type*) (pages : Nat) : Machine (State α) (Action α) where
  Init s := s.taken = false ∧ s.count = 0 ∧ s.waiting = false ∧ s.woken = false ∧
    s.parent = .up .exchange ∧ s.child = .unborn ∧ s.poster = .idle ∧ s.image = s.origin
  step := step pages

/-- The next step of the child or of the poster is an access to the latch. -/
def State.touches (s : State α) : Action α → Bool
  | .child => match s.child with
    | .down _ | .readCount | .subCount | .takeAll | .nextEpoch | .notifyUnlock _
    | .downUnlock _ => true
    | .unborn | .copy _ | .wake | .resumed => false
  | .poster => match s.poster with
    | .lock _ | .checkEpoch | .park | .parkUnlock _ | .readyUnlock _ => true
    | .idle | .readyAdd => false
  | .parent _ | .write _ _ => false

/-! The invariant. -/

def Locking.holds : Locking → Bool
  | .exchange => false
  | .keepWas | .keepStart => true

def Parent.holds : Parent → Bool
  | .up l | .sync l => l.holds
  | .addCount | .upUnlock _ | .check | .readEpoch | .waitUnlock _ | .syncUnlock _ => true
  | .create | .pick | .asleep | .leave | .returned => false

def Child.holds : Child → Bool
  | .down l => l.holds
  | .readCount | .subCount | .takeAll | .nextEpoch | .notifyUnlock _ | .downUnlock _ => true
  | .unborn | .copy _ | .wake | .resumed => false

def Poster.holds : Poster → Bool
  | .lock l => l.holds
  | .checkEpoch | .park | .parkUnlock _ | .readyUnlock _ => true
  | .idle | .readyAdd => false

/-- The parent is before `Thread::create`. -/
def Parent.early : Parent → Bool
  | .up _ | .addCount | .upUnlock _ | .create => true
  | _ => false

def Parent.uncounted : Parent → Bool
  | .up _ | .addCount => true
  | _ => false

def Parent.through : Parent → Bool
  | .syncUnlock _ | .leave | .returned => true
  | _ => false

def Child.before : Child → Bool
  | .unborn | .copy _ | .down _ | .readCount | .subCount => true
  | _ => false

def Child.past : Child → Bool
  | .wake | .resumed => true
  | _ => false

structure Inv (s : State α) : Prop where
  lock : s.parent.holds.toNat+s.child.holds.toNat+s.poster.holds.toNat = s.taken.toNat
  early : s.parent.early = true ↔ s.child = .unborn
  count : s.count = if s.parent.uncounted || !s.child.before then 0 else 1
  through : s.parent.through → s.child.past
  awake : s.parent = .asleep ∨ s.poster = .idle ∧ s.waiting = false ∧ s.woken = false
  parked : s.waiting = true → s.woken = false ∧ (s.poster = .idle ∨ ∃ u, s.poster = .parkUnlock u)
  woken : s.woken = true → s.poster = .idle

variable {s t : State α} {pages : Nat} {pc : Parent} {child : Child} {poster : Poster} {b : Bool}

theorem Child.past_of (hb : child.before = false) (hh : child.holds = false) :
    child.past = true := by
  cases child <;> simp_all [Child.before, Child.holds, Child.past]

/-- A step of the parent between places that differ in the lock alone; `b` is the lock
afterwards. -/
theorem Inv.parentMoves (h : Inv s) (hne : s.parent ≠ .asleep)
    (hlock : b.toNat+s.parent.holds.toNat = s.taken.toNat+pc.holds.toNat)
    (hearly : pc.early = s.parent.early) (hcount : pc.uncounted = s.parent.uncounted)
    (hthrough : pc.through = true → s.child.past = true) :
    Inv { s with taken := b, parent := pc } where
  lock := by
    have hall := h.lock
    change pc.holds.toNat+s.child.holds.toNat+s.poster.holds.toNat = b.toNat
    omega
  early := by
    change pc.early = true ↔ _
    rw [hearly]
    exact h.early
  count := by
    change s.count = _
    rw [hcount]
    exact h.count
  through := hthrough
  awake := .inr (h.awake.resolve_left hne)
  parked := h.parked
  woken := h.woken

theorem Inv.childMoves (h : Inv s) (hne : s.child ≠ .unborn) (hne' : child ≠ .unborn)
    (hlock : b.toNat+s.child.holds.toNat = s.taken.toNat+child.holds.toNat)
    (hbefore : child.before = s.child.before) (hpast : s.child.past = true → child.past = true) :
    Inv { s with taken := b, child := child } where
  lock := by
    have hall := h.lock
    change s.parent.holds.toNat+child.holds.toNat+s.poster.holds.toNat = b.toNat
    omega
  early := h.early.trans ⟨fun he => absurd he hne, fun he => absurd he hne'⟩
  count := by
    change s.count = _
    rw [hbefore]
    exact h.count
  through hp := hpast (h.through hp)
  awake := h.awake
  parked := h.parked
  woken := h.woken

theorem Inv.posterMoves (h : Inv s) (hne : s.poster ≠ .idle) (hpark : ∀ u, s.poster ≠ .parkUnlock u)
    (hlock : b.toNat+s.poster.holds.toNat = s.taken.toNat+poster.holds.toNat) :
    Inv { s with taken := b, poster := poster } where
  lock := by
    have hall := h.lock
    change s.parent.holds.toNat+s.child.holds.toNat+poster.holds.toNat = b.toNat
    omega
  early := h.early
  count := h.count
  through := h.through
  awake := .inl (h.awake.resolve_right fun ha => hne ha.1)
  parked hw := absurd (h.parked hw).2 (by
    rintro (hi | ⟨u,hu⟩)
    · exact hne hi
    · exact hpark u hu)
  woken hw := absurd (h.woken hw) hne

theorem Inv.taken (h : Inv s)
    (hh : s.parent.holds = true ∨ s.child.holds = true ∨ s.poster.holds = true) :
    s.taken = true := by
  have hall := h.lock
  cases hb : s.taken with
  | true => rfl
  | false =>
    rw [hb] at hall
    obtain hh | hh | hh := hh <;> rw [hh] at hall <;> simp at hall

theorem Inv.alone (h : Inv s) (hc : s.child.holds = true) :
    s.parent.holds = false ∧ s.poster.holds = false := by
  have hall := h.lock
  have hone := Bool.toNat_le s.taken
  rw [hc] at hall
  cases hp : s.parent.holds <;> cases hq : s.poster.holds <;> simp_all <;> omega

theorem lock_rule {P : State α → Prop} {l : Locking} {move : Locking → State α → State α}
    {done : State α → State α} (hfail : P s)
    (htake : l.holds = false → s.taken = false → P (move .keepWas { s with taken := true }))
    (hstart : l.holds = true → P (move .keepStart s)) (hdone : l.holds = true → P (done s)) :
    P (s.lock l move done) := by
  cases l with
  | exchange =>
    change P (if s.taken = true then s else _)
    split
    · exact hfail
    · exact htake rfl (Bool.eq_false_iff.mpr ‹_›)
  | keepWas => exact hstart rfl
  | keepStart => exact hdone rfl

theorem unlock_rule {P : State α → Prop} {u : Unlocking} {move : Unlocking → State α → State α}
    {done : State α → State α} (hmove : ∀ u, P (move u s))
    (hdone : P (done { s with taken := false })) : P (s.unlock u move done) := by
  cases u with
  | release => exact hdone
  | readCountIt | setCountIt | readStart | readWas => exact hmove _

theorem Inv.parentStep (h : Inv s) {found : Bool} (hs : s.parentStep found = some t) : Inv t := by
  have hthrough := h.through
  have htaken := h.taken
  unfold State.parentStep at hs
  cases hpc : s.parent with
  | up l | sync l =>
    simp only [hpc, Option.some.injEq] at hs
    subst hs
    refine lock_rule h (fun hl ht => ?_) (fun hl => ?_) (fun hl => ?_)
    all_goals
      refine h.parentMoves ?_ ?_ ?_ ?_ ?_ <;> simp_all [Parent.holds, Locking.holds, Parent.early,
        Parent.uncounted, Parent.through]
  | upUnlock u | waitUnlock u | syncUnlock u =>
    simp only [hpc, Option.some.injEq] at hs
    subst hs
    refine unlock_rule (fun u => ?_) ?_
    all_goals
      refine h.parentMoves ?_ ?_ ?_ ?_ ?_ <;> simp_all [Parent.holds, Parent.early,
        Parent.uncounted, Parent.through]
  | addCount =>
    simp only [hpc, Option.some.injEq] at hs
    subst hs
    have hunborn : s.child = .unborn := h.early.mp (by rw [hpc]; rfl)
    have hcount := h.count
    simp only [hpc, Parent.uncounted, Bool.true_or, if_true] at hcount
    refine ⟨?_, ?_, ?_, fun hp => (by cases hp), .inr (h.awake.resolve_left (by simp [hpc])),
      h.parked, h.woken⟩
    · simpa [hpc, Parent.holds] using h.lock
    · simpa [hpc, Parent.early] using h.early
    · simp [hcount, hunborn, Parent.uncounted, Child.before]
  | create =>
    simp only [hpc, Option.some.injEq] at hs
    subst hs
    have hunborn : s.child = .unborn := h.early.mp (by rw [hpc]; rfl)
    refine ⟨?_, by simp [Parent.early], ?_, fun hp => (by cases hp),
      .inr (h.awake.resolve_left (by simp [hpc])), h.parked, h.woken⟩
    · simpa [hpc, hunborn, Parent.holds, Locking.holds, Child.holds] using h.lock
    · simpa [hpc, hunborn, Parent.uncounted, Child.before] using h.count
  | check =>
    simp only [hpc, Option.some.injEq] at hs
    subst hs
    by_cases hz : s.count = 0
    · -- The parent has the lock, so a child that has counted down has let it go.
      have hfree : s.child.holds = false := by
        refine Bool.eq_false_iff.mpr fun hc => ?_
        have hfree := (h.alone hc).1
        rw [hpc] at hfree
        cases hfree
      have hbefore : s.child.before = false := by
        have hcount := h.count
        cases hb : s.child.before with
        | false => rfl
        | true => simp [hpc, hz, hb, Parent.uncounted] at hcount
      rw [if_pos hz]
      exact h.parentMoves (by simp [hpc]) (by simp [hpc, Parent.holds])
        (by simp [hpc, Parent.early]) (by simp [hpc, Parent.uncounted])
        fun _ => Child.past_of hbefore hfree
    · rw [if_neg hz]
      refine h.parentMoves ?_ ?_ ?_ ?_ ?_ <;> simp_all [Parent.holds, Parent.early,
        Parent.uncounted, Parent.through]
  | readEpoch =>
    simp only [hpc, Option.some.injEq] at hs
    subst hs
    have hmoved : Inv { s with taken := s.taken, parent := .waitUnlock .readCountIt } := by
      refine h.parentMoves ?_ ?_ ?_ ?_ ?_ <;> simp_all [Parent.holds, Parent.early,
        Parent.uncounted, Parent.through]
    exact ⟨hmoved.lock, hmoved.early, hmoved.count, hmoved.through, hmoved.awake, hmoved.parked,
      hmoved.woken⟩
  | pick =>
    simp only [hpc] at hs
    have hawake := h.awake.resolve_left (by simp [hpc])
    split at hs <;> cases hs
    · refine ⟨?_, ?_, ?_, fun hp => (by cases hp), .inl rfl, fun hw => ?_, fun hw => ?_⟩
      · simpa [hpc, hawake.1, Parent.holds, Poster.holds, Locking.holds] using h.lock
      · simpa [hpc, Parent.early] using h.early
      · simpa [hpc, Parent.uncounted] using h.count
      · simp [hawake.2.1] at hw
      · simp [hawake.2.2] at hw
    · refine h.parentMoves ?_ ?_ ?_ ?_ ?_ <;> simp_all [Parent.holds, Locking.holds, Parent.early,
        Parent.uncounted, Parent.through]
  | leave =>
    simp only [hpc, Option.some.injEq] at hs
    subst hs
    refine h.parentMoves ?_ ?_ ?_ ?_ ?_ <;> simp_all [Parent.holds, Parent.early,
      Parent.uncounted, Parent.through]
  | asleep | returned =>
    simp only [hpc] at hs
    cases hs

theorem Inv.childStep (h : Inv s) (hs : s.childStep pages = some t) : Inv t := by
  have htaken := h.taken
  unfold State.childStep at hs
  cases hpc : s.child with
  | copy page =>
    simp only [hpc] at hs
    split at hs <;> cases hs
    · have hmoved : Inv { s with taken := s.taken, child := .copy (page+1) } := by
        refine h.childMoves ?_ ?_ ?_ ?_ ?_ <;> simp_all [Child.holds, Child.before, Child.past]
      exact ⟨hmoved.lock, hmoved.early, hmoved.count, hmoved.through, hmoved.awake, hmoved.parked,
        hmoved.woken⟩
    · refine h.childMoves ?_ ?_ ?_ ?_ ?_ <;> simp_all [Child.holds, Locking.holds, Child.before,
        Child.past]
  | down l =>
    simp only [hpc, Option.some.injEq] at hs
    subst hs
    refine lock_rule h (fun hl ht => ?_) (fun hl => ?_) (fun hl => ?_)
    all_goals
      refine h.childMoves ?_ ?_ ?_ ?_ ?_ <;> simp_all [Child.holds, Locking.holds, Child.before,
        Child.past]
  | notifyUnlock u | downUnlock u =>
    simp only [hpc, Option.some.injEq] at hs
    subst hs
    refine unlock_rule (fun u => ?_) ?_
    all_goals
      refine h.childMoves ?_ ?_ ?_ ?_ ?_ <;> simp_all [Child.holds, Child.before, Child.past]
  | readCount =>
    simp only [hpc] at hs
    split at hs <;> cases hs
    refine h.childMoves ?_ ?_ ?_ ?_ ?_ <;> simp_all [Child.holds, Child.before, Child.past]
  | subCount =>
    simp only [hpc, Option.some.injEq] at hs
    subst hs
    have hearly : s.parent.early = false := by simpa [hpc] using h.early
    have hcount : s.count = 1 := by
      have hc := h.count
      cases hp : s.parent <;> simp_all [Parent.early, Parent.uncounted, Child.before]
    have hthrough : s.parent.through ≠ true := fun hp => by
      have hpast := h.through hp
      rw [hpc] at hpast
      cases hpast
    rw [hcount]
    refine ⟨?_, ?_, ?_, fun hp => absurd hp hthrough, h.awake, h.parked, h.woken⟩
    · simpa [hpc, Child.holds] using h.lock
    · simpa using hearly
    · simp [Child.before]
  | takeAll =>
    simp only [hpc, Option.some.injEq] at hs
    subst hs
    have hposter := (h.alone (by rw [hpc]; rfl)).2
    have hthrough : s.parent.through ≠ true := fun hp => by
      have hpast := h.through hp
      rw [hpc] at hpast
      cases hpast
    refine ⟨?_, ?_, ?_, fun hp => absurd hp hthrough, ?_, fun hw => (by cases hw), fun hw => ?_⟩
    · simpa [hpc, Child.holds] using h.lock
    · simpa [hpc] using h.early
    · simpa [hpc, Child.before] using h.count
    · exact h.awake.imp_right fun ha => ⟨ha.1, rfl, ha.2.1⟩
    · -- The poster has let the lock go, so it is done.
      obtain hi | ⟨u,hu⟩ := (h.parked hw).2
      · exact hi
      · rw [hu] at hposter
        cases hposter
  | nextEpoch =>
    simp only [hpc, Option.some.injEq] at hs
    subst hs
    have hmoved : Inv { s with taken := s.taken, child := .notifyUnlock .readCountIt } := by
      refine h.childMoves ?_ ?_ ?_ ?_ ?_ <;> simp_all [Child.holds, Child.before, Child.past]
    exact ⟨hmoved.lock, hmoved.early, hmoved.count, hmoved.through, hmoved.awake, hmoved.parked,
      hmoved.woken⟩
  | wake =>
    simp only [hpc] at hs
    split at hs
    · rename_i hw
      cases hs
      have hidle := h.woken hw
      have hwait : s.waiting = false := by
        refine Bool.eq_false_iff.mpr fun hwait => ?_
        have hno := (h.parked hwait).1
        rw [hw] at hno
        cases hno
      have hasleep : s.parent = .asleep := by
        refine h.awake.resolve_right fun ha => ?_
        have hno := ha.2.2
        rw [hw] at hno
        cases hno
      refine ⟨?_, ?_, ?_, fun hp => (by cases hp), .inr ⟨hidle, hwait, rfl⟩, fun hw => ?_,
        fun hw => (by cases hw)⟩
      · simpa [hpc, hasleep, Parent.holds, Locking.holds, Child.holds] using h.lock
      · simp [Parent.early]
      · simpa [hpc, hasleep, Parent.uncounted, Child.before] using h.count
      · rw [hwait] at hw
        cases hw
    · cases hs
      refine h.childMoves ?_ ?_ ?_ ?_ ?_ <;> simp_all [Child.holds, Child.before, Child.past]
  | unborn | resumed =>
    simp only [hpc] at hs
    cases hs

theorem Inv.posterStep (h : Inv s) (hs : s.posterStep = some t) : Inv t := by
  have htaken := h.taken
  unfold State.posterStep at hs
  cases hpc : s.poster with
  | lock l =>
    simp only [hpc, Option.some.injEq] at hs
    subst hs
    refine lock_rule h (fun hl ht => ?_) (fun hl => ?_) (fun hl => ?_)
    all_goals
      refine h.posterMoves ?_ ?_ ?_ <;> simp_all [Poster.holds, Locking.holds]
  | checkEpoch =>
    simp only [hpc, Option.some.injEq] at hs
    subst hs
    refine h.posterMoves (by simp [hpc]) (by simp [hpc]) ?_
    split <;> simp_all [Poster.holds]
  | readyUnlock u =>
    simp only [hpc, Option.some.injEq] at hs
    subst hs
    refine unlock_rule (fun u => ?_) ?_
    all_goals
      refine h.posterMoves ?_ ?_ ?_ <;> simp_all [Poster.holds]
  | park =>
    simp only [hpc, Option.some.injEq] at hs
    subst hs
    have hasleep := h.awake.resolve_right fun ha => by simp [hpc] at ha
    refine ⟨?_, h.early, h.count, h.through, .inl hasleep, fun _ => ⟨?_, .inr ⟨_, rfl⟩⟩,
      fun hw => ?_⟩
    · simpa [hpc, Poster.holds] using h.lock
    · exact Bool.eq_false_iff.mpr fun hw => by simpa [hpc] using h.woken hw
    · exact absurd (h.woken hw) (by simp [hpc])
  | parkUnlock u =>
    simp only [hpc, Option.some.injEq] at hs
    subst hs
    have hasleep := h.awake.resolve_right fun ha => by simp [hpc] at ha
    have hwoken : s.woken = false :=
      Bool.eq_false_iff.mpr fun hw => by simpa [hpc] using h.woken hw
    have hlock := h.lock
    rw [hpc] at hlock
    refine unlock_rule (fun u => ?_) ?_
    · exact ⟨hlock, h.early, h.count, h.through, .inl hasleep, fun _ => ⟨hwoken, .inr ⟨u, rfl⟩⟩,
        fun hw => by simpa [hpc] using h.woken hw⟩
    · refine ⟨?_, h.early, h.count, h.through, .inl hasleep, fun _ => ⟨hwoken, .inl rfl⟩,
        fun _ => rfl⟩
      rw [htaken (.inr (.inr (by rw [hpc]; rfl)))] at hlock
      exact Nat.succ.inj hlock
  | readyAdd =>
    simp only [hpc, Option.some.injEq] at hs
    subst hs
    have hasleep := h.awake.resolve_right fun ha => by simp [hpc] at ha
    have hwait : s.waiting = false :=
      Bool.eq_false_iff.mpr fun hw => by simpa [hpc] using (h.parked hw).2
    have hwoken : s.woken = false :=
      Bool.eq_false_iff.mpr fun hw => by simpa [hpc] using h.woken hw
    refine ⟨?_, ?_, ?_, fun hp => (by cases hp), .inr ⟨rfl, hwait, hwoken⟩, fun hw => ?_,
      fun _ => rfl⟩
    · simpa [hpc, hasleep, Parent.holds, Locking.holds, Poster.holds] using h.lock
    · simpa [hasleep, Parent.early] using h.early
    · simpa [hasleep, Parent.uncounted] using h.count
    · exact absurd hw (Bool.eq_false_iff.mp hwait)
  | idle =>
    simp only [hpc] at hs
    cases hs

/-! What the child copies. -/

def Child.copied : Child → Bool
  | .unborn | .copy _ => false
  | _ => true

/-- The parent's memory stands still until `sync` returns, and the child copies it. -/
structure Copies (pages : Nat) (s : State α) : Prop where
  still : s.parent ≠ .returned → s.image = s.origin
  part : ∀ page, s.child = .copy page → page ≤ pages ∧ ∀ i < page, s.copy i = s.origin i
  whole : s.child.copied = true → ∀ i < pages, s.copy i = s.origin i

theorem Copies.moves (h : Copies pages s) (himage : t.image = s.image) (hcopy : t.copy = s.copy)
    (horigin : t.origin = s.origin) (hback : s.parent = .returned → t.parent = .returned)
    (hpart : ∀ page, t.child = .copy page → s.child = .copy page)
    (hwhole : t.child.copied = true → s.child.copied = true) : Copies pages t := by
  refine ⟨fun hr => ?_, fun page hc => ?_, fun hc => ?_⟩
  · rw [himage, horigin]
    exact h.still fun hs => hr (hback hs)
  · rw [hcopy, horigin]
    exact h.part page (hpart page hc)
  · rw [hcopy, horigin]
    exact h.whole (hwhole hc)

theorem Copies.parentStep (h : Copies pages s) {found : Bool}
    (hs : s.parentStep found = some t) : Copies pages t := by
  unfold State.parentStep at hs
  cases hpc : s.parent with
  | up l | sync l =>
    simp only [hpc, Option.some.injEq] at hs
    subst hs
    refine lock_rule h (fun _ _ => ?_) (fun _ => ?_) (fun _ => ?_)
    all_goals exact h.moves rfl rfl rfl (by simp [hpc]) (fun _ => id) id
  | upUnlock u | waitUnlock u | syncUnlock u =>
    simp only [hpc, Option.some.injEq] at hs
    subst hs
    refine unlock_rule (fun u => ?_) ?_
    all_goals exact h.moves rfl rfl rfl (by simp [hpc]) (fun _ => id) id
  | create =>
    simp only [hpc, Option.some.injEq] at hs
    subst hs
    refine ⟨fun _ => h.still (by simp [hpc]), fun page hc => ?_, fun hc => by cases hc⟩
    cases hc
    exact ⟨Nat.zero_le _, fun i hi => by cases hi⟩
  | addCount | check | readEpoch | leave =>
    simp only [hpc, Option.some.injEq] at hs
    subst hs
    exact h.moves rfl rfl rfl (by simp [hpc]) (fun _ => id) id
  | pick =>
    simp only [hpc] at hs
    split at hs <;> cases hs
    all_goals exact h.moves rfl rfl rfl (by simp [hpc]) (fun _ => id) id
  | asleep | returned =>
    simp only [hpc] at hs
    cases hs

theorem Copies.childStep (h : Copies pages s) (hi : Inv s) (hs : s.childStep pages = some t) :
    Copies pages t := by
  unfold State.childStep at hs
  cases hpc : s.child with
  | copy page =>
    have hwaits : s.parent ≠ .returned := fun hr => by
      have hpast := hi.through (by rw [hr]; rfl)
      rw [hpc] at hpast
      cases hpast
    obtain ⟨hle,hpart⟩ := h.part page hpc
    simp only [hpc] at hs
    split at hs <;> cases hs
    · refine ⟨h.still, fun p hp => ?_, fun hc => by cases hc⟩
      cases hp
      refine ⟨by omega, fun i hi => ?_⟩
      by_cases he : i = page
      · subst he
        change update s.copy i (s.image i) i = _
        rw [update_self, h.still hwaits]
      · change update s.copy page (s.image page) i = _
        rw [update_of_ne he]
        exact hpart i (by omega)
    · refine ⟨h.still, fun p hp => (by cases hp), fun _ i hi => hpart i (by omega)⟩
  | down l =>
    simp only [hpc, Option.some.injEq] at hs
    subst hs
    refine lock_rule h (fun _ _ => ?_) (fun _ => ?_) (fun _ => ?_)
    all_goals exact h.moves rfl rfl rfl id (fun _ hc => by cases hc) fun _ => by rw [hpc]; rfl
  | notifyUnlock u | downUnlock u =>
    simp only [hpc, Option.some.injEq] at hs
    subst hs
    refine unlock_rule (fun u => ?_) ?_
    all_goals exact h.moves rfl rfl rfl id (fun _ hc => by cases hc) fun _ => by rw [hpc]; rfl
  | readCount =>
    simp only [hpc] at hs
    split at hs <;> cases hs
    exact h.moves rfl rfl rfl id (fun _ hc => by cases hc) fun _ => by rw [hpc]; rfl
  | subCount =>
    simp only [hpc, Option.some.injEq] at hs
    subst hs
    refine h.moves rfl rfl rfl id (fun _ hc => ?_) fun _ => by rw [hpc]; rfl
    change (if s.count-1 = 0 then _ else _) = _ at hc
    split at hc <;> cases hc
  | takeAll | nextEpoch =>
    simp only [hpc, Option.some.injEq] at hs
    subst hs
    exact h.moves rfl rfl rfl id (fun _ hc => by cases hc) fun _ => by rw [hpc]; rfl
  | wake =>
    simp only [hpc] at hs
    split at hs <;> cases hs
    · rename_i hw
      refine h.moves rfl rfl rfl (fun hr => ?_) (fun _ hc => by cases hc) fun _ => by rw [hpc]; rfl
      have hawake := hi.awake.resolve_left (by simp [hr])
      rw [hw] at hawake
      cases hawake.2.2
    · exact h.moves rfl rfl rfl id (fun _ hc => by cases hc) fun _ => by rw [hpc]; rfl
  | unborn | resumed =>
    simp only [hpc] at hs
    cases hs

theorem Copies.posterStep (h : Copies pages s) (hi : Inv s) (hs : s.posterStep = some t) :
    Copies pages t := by
  unfold State.posterStep at hs
  cases hpc : s.poster with
  | lock l =>
    simp only [hpc, Option.some.injEq] at hs
    subst hs
    refine lock_rule h (fun _ _ => ?_) (fun _ => ?_) (fun _ => ?_)
    all_goals exact h.moves rfl rfl rfl id (fun _ => id) id
  | parkUnlock u | readyUnlock u =>
    simp only [hpc, Option.some.injEq] at hs
    subst hs
    refine unlock_rule (fun u => ?_) ?_
    all_goals exact h.moves rfl rfl rfl id (fun _ => id) id
  | checkEpoch | park =>
    simp only [hpc, Option.some.injEq] at hs
    subst hs
    exact h.moves rfl rfl rfl id (fun _ => id) id
  | readyAdd =>
    simp only [hpc, Option.some.injEq] at hs
    subst hs
    refine h.moves rfl rfl rfl (fun hr => ?_) (fun _ => id) id
    have hawake := hi.awake.resolve_left (by simp [hr])
    rw [hpc] at hawake
    cases hawake.1
  | idle =>
    simp only [hpc] at hs
    cases hs

/-! Every run. -/

theorem kept_step {a : Action α} (h : Inv s ∧ Copies pages s) (hs : step pages s a = some t) :
    Inv t ∧ Copies pages t := by
  obtain ⟨hi,hc⟩ := h
  cases a with
  | parent found => exact ⟨hi.parentStep hs, hc.parentStep hs⟩
  | child => exact ⟨hi.childStep hs, hc.childStep hi hs⟩
  | poster => exact ⟨hi.posterStep hs, hc.posterStep hi hs⟩
  | write page x =>
    simp only [step] at hs
    split at hs <;> cases hs
    rename_i hr
    exact ⟨⟨hi.lock, hi.early, hi.count, hi.through, hi.awake, hi.parked, hi.woken⟩,
      fun hne => absurd hr hne, hc.part, hc.whole⟩

theorem kept_invariant :
    (machine α pages).system.Invariant fun s => Inv s ∧ Copies pages s where
  init s := by
    rintro ⟨htaken,hcount,hwaiting,hwoken,hparent,hchild,hposter,himage⟩
    refine ⟨⟨?_, ?_, ?_, ?_, .inr ⟨hposter, hwaiting, hwoken⟩, ?_, ?_⟩, fun _ => himage, ?_, ?_⟩
    all_goals simp [htaken, hcount, hwaiting, hwoken, hparent, hchild, hposter, Parent.holds,
      Locking.holds, Child.holds, Poster.holds, Parent.early, Parent.uncounted, Parent.through,
      Child.copied]
  step _ _ h hs := by
    obtain ⟨_,-,hs⟩ := hs
    exact kept_step h hs

/-- Nobody accesses the latch once the parent has returned from `sync`, whose frame it lies in;
by then the child has all the pages, as they were when `fork` was called, and the child never
finds the count at zero. -/
theorem fork_latch (s : State α) (h : (machine α pages).system.Reachable s) :
    (s.parent = .returned → ∀ a, s.touches a = false) ∧
    (s.parent = .returned ∨ s.child.copied = true → ∀ i < pages, s.copy i = s.origin i) ∧
    (s.child = .readCount → s.count ≠ 0) := by
  obtain ⟨hi,hc⟩ := kept_invariant.reachable h
  refine ⟨fun hr a => ?_, fun hdone => ?_, fun hread => ?_⟩
  · have hpast := hi.through (by rw [hr]; rfl)
    have hposter := (hi.awake.resolve_left (by simp [hr])).1
    cases a with
    | child => cases hchild : s.child <;> simp_all [State.touches, Child.past]
    | poster => simp [State.touches, hposter]
    | parent found | write page x => rfl
  · refine hc.whole ?_
    obtain hr | hcopied := hdone
    · have hpast := hi.through (by rw [hr]; rfl)
      cases hchild : s.child <;> simp_all [Child.copied, Child.past]
    · exact hcopied
  · have hcount := hi.count
    have hearly : s.parent.early ≠ true := fun he => by simpa [hread] using hi.early.mp he
    cases hp : s.parent <;> simp_all [Parent.early, Parent.uncounted, Child.before]

/-- A call of `fork` with two pages. -/
def forkCall : State Nat :=
  ⟨false, 0, 0, false, 0, false, .up .exchange, .unborn, .idle, id, fun _ => 0, id⟩

def sleepAndWake : List (Action Nat) :=
  List.replicate 21 (.parent true) ++ List.replicate 10 .poster ++ List.replicate 16 .child ++
    List.replicate 10 (.parent true)

theorem fork_latch_sleep :
    ((machine Nat 2).run forkCall sleepAndWake).parent = .returned ∧
      ((machine Nat 2).run forkCall sleepAndWake).touches .child = false ∧
      ((machine Nat 2).run forkCall sleepAndWake).copy 1 = 1 := by
  have hr : (machine Nat 2).system.Reachable ((machine Nat 2).run forkCall sleepAndWake) :=
    Machine.reachable_run (.init ⟨rfl, rfl, rfl, rfl, rfl, rfl, rfl, rfl⟩) Machine.allowed_true
  have hend : ((machine Nat 2).run forkCall sleepAndWake).parent = .returned := by decide +kernel
  obtain ⟨htouch,hcopy,-⟩ := fork_latch _ hr
  exact ⟨hend, htouch hend .child, (hcopy (.inl hend) 1 (by decide)).trans (by decide +kernel)⟩

end NetKernel.ForkLatch
