import NetKernel.Sched.Condition

/-! `Semaphore` and `BlockingLock` over `Condition`: while a thread is parked, at least as
many threads as the count are back in their loop. A lock counts 1 when it is unlocked. -/
namespace NetKernel.WakeUps
open Runs Conditions

/-! The threads that are back in their loop. -/

/-- `runnable` lists the threads that were woken, or bounced by the epoch check, and have
not taken the lock again. -/
structure Tracked (τ σ ρ : Type*) where
  state : State τ σ ρ
  runnable : List τ

section Counting
variable {τ σ ρ : Type*} [DecidableEq τ]

def woken (s : State τ σ ρ) : Wake → List τ
  | .nobody => []
  | .one => s.waiting.take 1
  | .all => s.waiting

def returned (body : σ → ρ → Outcome σ) (s : State τ σ ρ) : Action τ ρ → List τ
  | .critical i =>
    match s.status i with
    | .inside call =>
      match body s.data call with
      | .leave _ wakes _ => woken s wakes
      | .wait => []
    | _ => []
  | .postSwitch i =>
    match s.status i with
    | .captured _ condEpoch => if s.epoch = condEpoch then [] else [i]
    | _ => []
  | _ => []

/-- A thread that takes the lock leaves the list: it is past its loop, or waits anew. -/
def remaining (runnable : List τ) : Action τ ρ → List τ
  | .critical i => runnable.erase i
  | _ => runnable

def trackedStep (body : σ → ρ → Outcome σ) (s : Tracked τ σ ρ) (a : Action τ ρ) :
    Option (Tracked τ σ ρ) :=
  (step body s.state a).map fun t => ⟨t, remaining s.runnable a ++ returned body s.state a⟩

def trackedMachine (τ : Type*) [DecidableEq τ] (body : σ → ρ → Outcome σ) (data : σ) :
    Machine (Tracked τ σ ρ) (Action τ ρ) where
  Init s := s = ⟨start data, []⟩
  step := trackedStep body

/-- No notification brings the 64-bit epoch round to one that a thread on its way into the
queue has captured. -/
def NoLap (body : σ → ρ → Outcome σ) (s : Tracked τ σ ρ) : Action τ ρ → Prop
  | .critical i => ∀ call data w result, s.state.status i = .inside call →
      body s.state.data call = .leave data w result → w ≠ .nobody →
        ∀ j call', s.state.status j ≠ .captured call' (nextEpoch s.state.epoch)
  | _ => True

variable {body : σ → ρ → Outcome σ} {count : σ → Nat} {s t : Tracked τ σ ρ} {i : τ} {call : ρ}

theorem trackedStep_cases {a : Action τ ρ} (h : trackedStep body s a = some t) :
    (∃ i call, s.state.status i = .outside ∧ t = ⟨s.state.put i (.inside call), s.runnable⟩) ∨
    (∃ i call, s.state.status i = .inside call ∧ body s.state.data call = .wait ∧
      t = ⟨s.state.put i (.captured call s.state.epoch), s.runnable.erase i⟩) ∨
    (∃ i call data w result, a = .critical i ∧ s.state.status i = .inside call ∧
      body s.state.data call = .leave data w result ∧
      t = ⟨(s.state.notify w).leave i call data result, s.runnable.erase i ++ woken s.state w⟩) ∨
    (∃ i call e, s.state.status i = .captured call e ∧
      t = ⟨s.state.put i (.inside call), s.runnable⟩) ∨
    (∃ i call e, s.state.status i = .captured call e ∧ s.state.epoch ≠ e ∧
      t = ⟨s.state.put i (.inside call), s.runnable ++ [i]⟩) ∨
    (∃ i call, s.state.status i = .captured call s.state.epoch ∧
      t = ⟨{ s.state.put i (.parked call) with waiting := s.state.waiting ++ [i] },
        s.runnable⟩) := by
  obtain ⟨u,hu,rfl⟩ := Option.map_eq_some_iff.mp h
  cases a with
  | call i call =>
    simp only [step] at hu
    split at hu <;> cases hu
    exact Or.inl ⟨i, call, ‹_›, by simp only [remaining, returned, List.append_nil]⟩
  | critical i =>
    simp only [step] at hu
    split at hu
    · rename_i call hi
      split at hu <;> cases hu
      · rename_i hb
        exact Or.inr (Or.inl ⟨i, call, hi, hb, by
          simp only [remaining, returned, hi, hb, List.append_nil]⟩)
      · rename_i data w result hb
        exact Or.inr (Or.inr (Or.inl ⟨i, call, data, w, result, rfl, hi, hb, by
          simp only [remaining, returned, hi, hb]⟩))
    · cases hu
  | retry i =>
    simp only [step] at hu
    split at hu <;> cases hu
    exact Or.inr (Or.inr (Or.inr (Or.inl ⟨i, _, _, ‹_›, by
      simp only [remaining, returned, List.append_nil]⟩)))
  | postSwitch i =>
    simp only [step] at hu
    split at hu
    · rename_i call e hi
      split at hu <;> cases hu
      · rename_i he
        subst he
        exact Or.inr (Or.inr (Or.inr (Or.inr (Or.inr ⟨i, call, hi, by
          simp only [remaining, returned, hi, if_true, List.append_nil]⟩))))
      · rename_i he
        exact Or.inr (Or.inr (Or.inr (Or.inr (Or.inl ⟨i, call, e, hi, he, by
          simp only [remaining, returned, hi, if_neg he]⟩))))
    · cases hu

/-! The invariant. -/

def Waits (body : σ → ρ → Outcome σ) (call : ρ) : Prop := ∃ data, body data call = .wait

/-- Sections wait only at count 0, take one unit without a notification, or give at most
one with `notify_one`; no call does both. -/
structure Counted (body : σ → ρ → Outcome σ) (count : σ → Nat) : Prop where
  wait : ∀ {d c}, body d c = .wait → count d = 0
  take : ∀ {d c d' r}, body d c = .leave d' .nobody r → count d'+1 ≤ count d
  give : ∀ {d c d' r}, body d c = .leave d' .one r → count d' ≤ count d+1
  one : ∀ {d c d' w r}, body d c = .leave d' w r → w ≠ .all
  taker : ∀ {d c d' w r}, Waits body c → body d c = .leave d' w r → w = .nobody

structure Enough (body : σ → ρ → Outcome σ) (count : σ → Nat) (s : Tracked τ σ ρ) : Prop where
  queued : Queued s.state
  captured : ∀ i call e, s.state.status i = .captured call e → Waits body call
  parked : ∀ i call, s.state.status i = .parked call → Waits body call
  nodup : s.runnable.Nodup
  inside : ∀ i ∈ s.runnable, ∃ call, s.state.status i = .inside call ∧ Waits body call
  limbo : ∀ i call, s.state.status i = .captured call s.state.epoch → count s.state.data = 0
  enough : s.state.waiting ≠ [] → count s.state.data ≤ s.runnable.length

omit [DecidableEq τ] in
theorem Enough.init (data : σ) :
    Enough body count (⟨start data, []⟩ : Tracked τ σ ρ) := by
  refine ⟨⟨List.nodup_nil, fun i => by simp [start]⟩, ?_, ?_, List.nodup_nil, by simp, ?_, ?_⟩
  · intro i call e h
    cases h
  · intro i call h
    cases h
  · intro i call h
    cases h
  · intro h
    exact absurd rfl h

/-- A thread outside the queue and the list changes to a status that counts for neither. -/
theorem Enough.put {status : Status ρ} (h : Enough body count s)
    (hp : ∀ call, s.state.status i ≠ .parked call) (hn : ∀ call, status ≠ .parked call)
    (hc : ∀ call e, status = .captured call e → Waits body call ∧
      (e = s.state.epoch → count s.state.data = 0)) (hr : i ∉ s.runnable) :
    Enough body count ⟨s.state.put i status, s.runnable⟩ := by
  refine ⟨h.queued.put hp hn, fun j call e hj => ?_, fun j call hj => ?_, h.nodup,
    fun j hj => ?_, fun j call hj => ?_, h.enough⟩
  · simp only [put_status] at hj
    split at hj
    · exact (hc call e hj).1
    · exact h.captured j call e hj
  · simp only [put_status] at hj
    split at hj
    · exact absurd hj (hn call)
    · exact h.parked j call hj
  · have hne : j ≠ i := by rintro rfl; exact hr hj
    simp only [put_status, if_neg hne]
    exact h.inside j hj
  · simp only [put_status] at hj
    split at hj
    · exact (hc call _ hj).2 rfl
    · exact h.limbo j call hj

theorem Enough.erase (h : Enough body count s) (i : τ)
    (henough : s.state.waiting ≠ [] → count s.state.data ≤ (s.runnable.erase i).length) :
    Enough body count ⟨s.state, s.runnable.erase i⟩ :=
  ⟨h.queued, h.captured, h.parked, h.nodup.erase i,
    fun j hj => h.inside j (List.mem_of_mem_erase hj), h.limbo, henough⟩

omit [DecidableEq τ] in
theorem Enough.push (h : Enough body count s) (hi : s.state.status i = .inside call)
    (hw : Waits body call) (hr : i ∉ s.runnable) :
    Enough body count ⟨s.state, s.runnable ++ [i]⟩ := by
  refine ⟨h.queued, h.captured, h.parked, ?_, fun j hj => ?_, h.limbo, fun hn => ?_⟩
  · refine List.nodup_append.mpr ⟨h.nodup, List.nodup_singleton i, ?_⟩
    rintro a ha b hb rfl
    exact hr (List.mem_singleton.mp hb ▸ ha)
  · cases List.mem_append.mp hj with
    | inl hj => exact h.inside j hj
    | inr hj => exact ⟨call, List.mem_singleton.mp hj ▸ hi, hw⟩
  · have hold := h.enough hn
    rw [List.length_append]
    change count s.state.data ≤ s.runnable.length+[i].length
    omega

omit [DecidableEq τ] in
theorem Enough.not_mem (h : Enough body count s)
    (hi : ∀ call, s.state.status i = .inside call → ¬ Waits body call) : i ∉ s.runnable := by
  intro hr
  obtain ⟨call,hc,hw⟩ := h.inside i hr
  exact hi call hc hw

theorem Enough.notify {data : σ} (h : Enough body count s)
    (hlap : ∀ j call, s.state.status j ≠ .captured call (nextEpoch s.state.epoch))
    (hgive : count data ≤ count s.state.data+1) :
    Enough body count ⟨{ s.state.notify .one with data := data },
      s.runnable ++ s.state.waiting.take 1⟩ := by
  have hpark {k : τ} (hk : k ∈ s.state.waiting.take 1) :
      ∃ call, s.state.status k = .parked call := (h.queued.mem k).mp (List.mem_of_mem_take hk)
  have hq := h.queued.notify .one
  refine ⟨⟨hq.nodup, hq.mem⟩, fun j call e hj => ?_, fun j call hj => ?_, ?_, fun j hj => ?_,
    fun j call hj => ?_, fun hn => ?_⟩
  · exact h.captured j call e ((wake_captured _ _).mp hj)
  · exact h.parked j call ((wake_parked _ _).mp hj).2
  · refine List.nodup_append.mpr
      ⟨h.nodup, h.queued.nodup.sublist (List.take_sublist _ _), ?_⟩
    rintro a ha b hb rfl
    obtain ⟨call,hc,-⟩ := h.inside a ha
    obtain ⟨call',hc'⟩ := hpark hb
    rw [hc] at hc'
    cases hc'
  · cases List.mem_append.mp hj with
    | inl hj =>
      obtain ⟨call,hc,hw⟩ := h.inside j hj
      exact ⟨call, notify_status_inside .one hc, hw⟩
    | inr hj =>
      obtain ⟨call,hc⟩ := hpark hj
      refine ⟨call, ?_, h.parked j call hc⟩
      change wake (s.state.waiting.take 1) s.state.status j = .inside call
      rw [wake, if_pos hj, hc]
  · exact absurd ((wake_captured _ _).mp hj) (hlap j call)
  · have hne : s.state.waiting ≠ [] := by
      intro h0
      have hd : s.state.waiting.drop 1 ≠ [] := hn
      rw [h0] at hd
      exact hd rfl
    have hlen : (s.state.waiting.take 1).length = 1 := by
      rw [List.length_take]
      have := List.length_pos_iff.mpr hne
      omega
    have hold := h.enough hne
    rw [List.length_append, hlen]
    change count data ≤ s.runnable.length+1
    omega

omit [DecidableEq τ] in
theorem Enough.data {data : σ} (h : Enough body count s) (hle : count data+1 ≤ count s.state.data)
    {runnable : List τ} (hsub : runnable.Sublist s.runnable)
    (hlen : s.runnable.length ≤ runnable.length+1) :
    Enough body count ⟨{ s.state with data := data }, runnable⟩ := by
  refine ⟨⟨h.queued.nodup, h.queued.mem⟩, h.captured, h.parked, h.nodup.sublist hsub,
    fun j hj => h.inside j (hsub.subset hj), fun j call hj => ?_, fun hn => ?_⟩
  · have h0 := h.limbo j call hj
    omega
  · have hold := h.enough hn
    change count data ≤ runnable.length
    omega

theorem Enough.park (h : Enough body count s)
    (hi : s.state.status i = .captured call s.state.epoch) :
    Enough body count ⟨{ s.state.put i (.parked call) with waiting := s.state.waiting ++ [i] },
      s.runnable⟩ := by
  refine ⟨h.queued.park hi, fun j call' e hj => ?_, fun j call' hj => ?_, h.nodup,
    fun j hj => ?_, fun j call' hj => ?_, fun _ => ?_⟩
  · simp only [put_status] at hj
    split at hj
    · cases hj
    · exact h.captured j call' e hj
  · simp only [put_status] at hj
    split at hj
    · cases hj
      exact h.captured i call _ hi
    · exact h.parked j call' hj
  · have hne : j ≠ i := by
      rintro rfl
      obtain ⟨call',hc,-⟩ := h.inside j hj
      rw [hi] at hc
      cases hc
    simp only [put_status, if_neg hne]
    exact h.inside j hj
  · simp only [put_status] at hj
    split at hj
    · cases hj
    · exact h.limbo j call' hj
  · have h0 : count s.state.data = 0 := h.limbo i call hi
    change count s.state.data ≤ s.runnable.length
    omega

theorem Enough.leave {data : σ} (result : Int) (h : Enough body count s)
    (hi : s.state.status i = .inside call) (hr : i ∉ s.runnable) (hd : s.state.data = data) :
    Enough body count ⟨s.state.leave i call data result, s.runnable⟩ := by
  subst hd
  have hput : Enough body count ⟨s.state.put i .outside, s.runnable⟩ :=
    h.put (by simp [hi]) (by simp) (by simp) hr
  exact ⟨⟨hput.queued.nodup, hput.queued.mem⟩, hput.captured, hput.parked, hput.nodup,
    hput.inside, hput.limbo, hput.enough⟩

theorem Enough.step {a : Action τ ρ} (hb : Counted body count) (h : Enough body count s)
    (hlap : NoLap body s a) (hs : trackedStep body s a = some t) : Enough body count t := by
  have herase (i : τ) : i ∉ s.runnable.erase i := fun hi => (h.nodup.mem_erase_iff.mp hi).1 rfl
  obtain ⟨i,call,hi,rfl⟩ | ⟨i,call,hi,hw,rfl⟩ | ⟨i,call,data,w,result,rfl,hi,hl,rfl⟩ |
    ⟨i,call,e,hi,rfl⟩ | ⟨i,call,e,hi,-,rfl⟩ | ⟨i,call,hi,rfl⟩ := trackedStep_cases hs
  · exact h.put (by simp [hi]) (by simp) (by simp) (h.not_mem (by simp [hi]))
  · have h0 := hb.wait hw
    have hoff : Enough body count ⟨s.state, s.runnable.erase i⟩ := h.erase i (by omega)
    refine hoff.put (by simp [hi]) (by simp) ?_ (herase i)
    rintro call' e ⟨⟩
    exact ⟨⟨_, hw⟩, fun _ => h0⟩
  · cases w with
    | nobody =>
      have hlen : s.runnable.length ≤ (s.runnable.erase i).length+1 := by
        rw [List.length_erase]
        split <;> omega
      rw [woken, List.append_nil]
      exact (h.data (hb.take hl) List.erase_sublist hlen).leave result hi (herase i) rfl
    | one =>
      have hnot : i ∉ s.runnable := h.not_mem fun call' hc hw => by
        rw [hi] at hc
        cases hc
        exact absurd (hb.taker hw hl) (by decide)
      have hn := h.notify (hlap call data .one result hi hl (by decide)) (hb.give hl)
      have hin := notify_status_inside .one hi
      rw [List.erase_of_not_mem hnot]
      refine hn.leave result hin (fun hm => ?_) rfl
      obtain ⟨call',hc,hw⟩ := hn.inside i hm
      rw [show call' = call by rw [hin] at hc; injection hc with hc; exact hc.symm] at hw
      exact absurd (hb.taker hw hl) (by decide)
    | all => exact absurd rfl (hb.one hl)
  · exact h.put (by simp [hi]) (by simp) (by simp) (h.not_mem (by simp [hi]))
  · have hput : Enough body count ⟨s.state.put i (.inside call), s.runnable⟩ :=
      h.put (by simp [hi]) (by simp) (by simp) (h.not_mem (by simp [hi]))
    exact hput.push (by simp [put_status]) (h.captured i call e hi) (h.not_mem (by simp [hi]))
  · exact h.park hi

theorem enough_invariant (hb : Counted body count) (data : σ) :
    ((trackedMachine τ body data).under (NoLap body)).Invariant (Enough body count) where
  init := by
    rintro s rfl
    exact Enough.init data
  step := fun _ _ h ⟨_,hc,hs⟩ => h.step hb hc hs

/-- The threads on the list are in the loop of `loop`, and while a thread is parked they are
at least as many as the count. -/
def Covered (loop : ρ) (count : Nat) (s : Tracked τ σ ρ) : Prop :=
  s.runnable.Nodup ∧ (∀ i ∈ s.runnable, s.state.status i = .inside loop) ∧
    (s.state.waiting ≠ [] → count ≤ s.runnable.length)

omit [DecidableEq τ] in
theorem Enough.covered {loop : ρ} (h : Enough body count s)
    (hloop : ∀ call, Waits body call → call = loop) : Covered loop (count s.state.data) s := by
  refine ⟨h.nodup, fun i hi => ?_, h.enough⟩
  obtain ⟨call,hc,hw⟩ := h.inside i hi
  rw [hc, hloop call hw]

end Counting

/-! The two objects. -/

inductive SemaphoreCall where
  | down | up
deriving DecidableEq, Repr

/-- `Semaphore::down` and `Semaphore::up`. -/
def semaphoreBody (count : UInt64) : SemaphoreCall → Outcome UInt64
  | .down => if count = 0 then .wait else .leave (count-1) .nobody 0
  | .up => .leave (count+1) .one 0

def semaphoreMachine (τ : Type*) [DecidableEq τ] (n : UInt32) :
    Machine (Tracked τ UInt64 SemaphoreCall) (Action τ SemaphoreCall) :=
  trackedMachine τ semaphoreBody n.toUInt64

inductive LockCall where
  | lock | unlock
deriving DecidableEq, Repr

/-- `BlockingLock::lock` and `BlockingLock::unlock`. -/
def lockBody (locked : Bool) : LockCall → Outcome Bool
  | .lock => if locked then .wait else .leave true .nobody 0
  | .unlock => .leave false .one 0

section Objects
variable {τ : Type*} [DecidableEq τ]

/-- `ASSERT(locked)` in `unlock`: where it fails the kernel shuts down. -/
def lockStep (s : Tracked τ Bool LockCall) (a : Action τ LockCall) :
    Option (Tracked τ Bool LockCall) :=
  match a with
  | .critical i =>
    if s.state.status i = .inside .unlock ∧ s.state.data = false then none
    else trackedStep lockBody s (.critical i)
  | a => trackedStep lockBody s a

def lockMachine (τ : Type*) [DecidableEq τ] :
    Machine (Tracked τ Bool LockCall) (Action τ LockCall) where
  Init s := s = ⟨start false, []⟩
  step := lockStep

def lockCount (locked : Bool) : Nat := if locked then 0 else 1

theorem semaphoreBody_counted : Counted semaphoreBody UInt64.toNat where
  wait := by
    intro d c h
    cases c with
    | down =>
      simp only [semaphoreBody] at h
      split at h
      · rename_i h0
        rw [h0]
        rfl
      · cases h
    | up => cases h
  take := by
    intro d c d' r h
    cases c with
    | down =>
      simp only [semaphoreBody] at h
      split at h
      · cases h
      · rename_i h0
        cases h
        have hpos : d.toNat ≠ 0 := fun h => h0 (UInt64.toNat_inj.mp h)
        have hle : (1 : UInt64) ≤ d := UInt64.le_iff_toNat_le.mpr (Nat.pos_of_ne_zero hpos)
        rw [UInt64.toNat_sub_of_le _ _ hle]
        exact Nat.le_of_eq (Nat.sub_add_cancel (Nat.pos_of_ne_zero hpos))
    | up => cases h
  give := by
    intro d c d' r h
    cases c with
    | down =>
      simp only [semaphoreBody] at h
      split at h <;> cases h
    | up =>
      cases h
      rw [UInt64.toNat_add]
      exact Nat.mod_le _ _
  one := by
    rintro d c d' w r h rfl
    cases c with
    | down =>
      simp only [semaphoreBody] at h
      split at h <;> cases h
    | up => cases h
  taker := by
    rintro d c d' w r ⟨d₀,hw⟩ h
    cases c with
    | down =>
      simp only [semaphoreBody] at h
      split at h <;> cases h
      rfl
    | up => cases hw

theorem semaphoreBody_loop {call : SemaphoreCall} (h : Waits semaphoreBody call) :
    call = .down := by
  obtain ⟨d,hd⟩ := h
  cases call with
  | down => rfl
  | up => cases hd

theorem lockBody_counted : Counted lockBody lockCount where
  wait := by
    intro d c h
    cases c with
    | lock => cases d <;> first | rfl | cases h
    | unlock => cases h
  take := by
    intro d c d' r h
    cases c with
    | lock => cases d <;> cases h; decide
    | unlock => cases h
  give := by
    intro d c d' r h
    cases c with
    | lock => cases d <;> cases h
    | unlock =>
      cases h
      cases d <;> decide
  one := by
    rintro d c d' w r h rfl
    cases c with
    | lock => cases d <;> cases h
    | unlock => cases h
  taker := by
    rintro d c d' w r ⟨d₀,hw⟩ h
    cases c with
    | lock => cases d <;> cases h; rfl
    | unlock => cases hw

theorem lockBody_loop {call : LockCall} (h : Waits lockBody call) : call = .lock := by
  obtain ⟨d,hd⟩ := h
  cases call with
  | lock => rfl
  | unlock => cases hd

variable {s t : Tracked τ Bool LockCall} {i : τ}

theorem lockStep_tracked {a : Action τ LockCall} (h : lockStep s a = some t) :
    trackedStep lockBody s a = some t := by
  unfold lockStep at h
  split at h
  · split at h
    · cases h
    · exact h
  · exact h

theorem lock_invariant :
    ((lockMachine τ).under (NoLap lockBody)).Invariant (Enough lockBody lockCount) where
  init := by
    rintro s rfl
    exact Enough.init false
  step := fun _ _ h ⟨_,hc,hs⟩ => h.step lockBody_counted hc (lockStep_tracked hs)

/-! Mutual exclusion. -/

def lastCall (results : List (τ × LockCall × Int)) (i : τ) : Option LockCall :=
  (results.reverse.find? fun r => r.1 = i).map fun r => r.2.1

/-- A thread between `lock()` and `unlock()`. -/
def Between (s : Tracked τ Bool LockCall) (i : τ) : Prop :=
  lastCall s.state.results i = some .lock

/-- Only a thread between `lock()` and `unlock()` calls `unlock()`. -/
def Paired (s : Tracked τ Bool LockCall) : Action τ LockCall → Prop
  | .call i .unlock => Between s i
  | _ => True

def calling : Status LockCall → Option LockCall
  | .outside => none
  | .inside call | .captured call _ | .parked call => some call

structure Exclusive (s : Tracked τ Bool LockCall) : Prop where
  unlocked : s.state.data = false → ∀ i, ¬Between s i
  unique : ∀ i j, Between s i → Between s j → i = j
  unlocking : ∀ i, calling (s.state.status i) = some .unlock → Between s i

theorem lastCall_append (results : List (τ × LockCall × Int)) (i j : τ) (call : LockCall)
    (result : Int) : lastCall (results ++ [(i, call, result)]) j =
      if j = i then some call else lastCall results j := by
  simp only [lastCall, List.reverse_append, List.reverse_singleton, List.singleton_append,
    List.find?_cons]
  by_cases hj : j = i
  · simp [hj]
  · have hne : ¬i = j := fun h => hj h.symm
    simp [hj, hne]

theorem calling_wake (woken : List τ) (status : τ → Status LockCall) (i : τ) :
    calling (wake woken status i) = calling (status i) := by
  unfold wake
  split
  · cases status i <;> rfl
  · rfl

theorem calling_notify (s : State τ Bool LockCall) (w : Wake) (i : τ) :
    calling ((s.notify w).status i) = calling (s.status i) := by
  cases w with
  | nobody => rfl
  | one | all => exact calling_wake _ _ i

theorem Exclusive.put {u : Tracked τ Bool LockCall} (h : Exclusive s)
    (hd : u.state.data = s.state.data) (hr : u.state.results = s.state.results)
    (hc : ∀ i, calling (u.state.status i) = some .unlock → Between s i) : Exclusive u := by
  have hb (i : τ) : Between u i ↔ Between s i := by rw [Between, hr]; rfl
  refine ⟨fun h0 i => ?_, fun i j => ?_, fun i hi => ?_⟩
  · rw [hb]
    exact h.unlocked (hd ▸ h0) i
  · rw [hb, hb]
    exact h.unique i j
  · rw [hb]
    exact hc i hi

theorem calling_put {st : State τ Bool LockCall} {status : Status LockCall}
    (hs : calling status = calling (st.status i)) (j : τ) :
    calling ((st.put i status).status j) = calling (st.status j) := by
  rw [put_status]
  split
  · rename_i hj
    rw [hj, hs]
  · rfl

/-- A thread comes back from its call: from `lock` there was no other between the two, from
`unlock` it was the one. -/
theorem Exclusive.leave {call : LockCall} {data : Bool} {w : Wake} {result : Int}
    {runnable : List τ} (h : Exclusive s) (hi : s.state.status i = .inside call)
    (hb : lockBody s.state.data call = .leave data w result) :
    Exclusive ⟨(s.state.notify w).leave i call data result, runnable⟩ := by
  have hres : (s.state.notify w).results = s.state.results := by cases w <;> rfl
  have hbetween (j : τ) : Between ⟨(s.state.notify w).leave i call data result, runnable⟩ j ↔
      if j = i then call = .lock else Between s j := by
    change lastCall ((s.state.notify w).results ++ [(i, call, result)]) j = _ ↔ _
    rw [hres, lastCall_append]
    split
    · exact Option.some_inj
    · rfl
  have hcalling (j : τ) (hj : calling (((s.state.notify w).leave i call data result).status j) =
      some .unlock) : j ≠ i ∧ Between s j := by
    have hput : ((s.state.notify w).leave i call data result).status j =
        if j = i then .outside else (s.state.notify w).status j := put_status _ _ _ _
    rw [hput] at hj
    split at hj
    · cases hj
    · rename_i hne
      rw [calling_notify] at hj
      exact ⟨hne, h.unlocking j hj⟩
  cases call with
  | lock =>
    have hfree : s.state.data = false := by
      cases hd : s.state.data with
      | false => rfl
      | true => rw [hd] at hb; cases hb
    have hnone := h.unlocked hfree
    have honly (j : τ)
        (hj : Between ⟨(s.state.notify w).leave i .lock data result, runnable⟩ j) : j = i := by
      rw [hbetween] at hj
      by_contra hne
      rw [if_neg hne] at hj
      exact hnone j hj
    refine ⟨fun h0 => ?_, fun j k hj hk => (honly j hj).trans (honly k hk).symm,
      fun j hj => absurd (hcalling j hj).2 (hnone j)⟩
    rw [hfree] at hb
    injection hb with hd
    exact absurd (hd.trans h0) (by decide)
  | unlock =>
    have hmine : Between s i := h.unlocking i (by rw [hi]; rfl)
    have hnone (j : τ) :
        ¬Between ⟨(s.state.notify w).leave i .unlock data result, runnable⟩ j := by
      rw [hbetween]
      split
      · exact fun h => by cases h
      · rename_i hne
        exact fun hj => hne (h.unique j i hj hmine)
    refine ⟨fun _ => hnone, fun j k hj => absurd hj (hnone j), fun j hj => ?_⟩
    obtain ⟨hne,hj⟩ := hcalling j hj
    exact absurd (h.unique j i hj hmine) hne

theorem Exclusive.step {a : Action τ LockCall} (h : Exclusive s) (hc : Paired s a)
    (hs : lockStep s a = some t) : Exclusive t := by
  obtain ⟨u,hu,rfl⟩ := Option.map_eq_some_iff.mp (lockStep_tracked hs)
  cases a with
  | call i call =>
    simp only [Conditions.step] at hu
    split at hu <;> cases hu
    refine h.put rfl rfl fun j hj => ?_
    simp only [put_status] at hj
    split at hj
    · rename_i hji
      cases hj
      rw [hji]
      exact hc
    · exact h.unlocking j hj
  | critical i =>
    simp only [Conditions.step] at hu
    split at hu
    · rename_i call hi
      split at hu <;> cases hu
      · refine h.put rfl rfl fun j hj => h.unlocking j ?_
        rwa [calling_put (by rw [hi]; rfl)] at hj
      · rename_i data w result hb
        exact h.leave hi hb
    · cases hu
  | retry i =>
    simp only [Conditions.step] at hu
    split at hu <;> cases hu
    rename_i call e hi
    refine h.put rfl rfl fun j hj => h.unlocking j ?_
    rwa [calling_put (by rw [hi]; rfl)] at hj
  | postSwitch i =>
    simp only [Conditions.step] at hu
    split at hu
    · rename_i call e hi
      split at hu <;> cases hu
      · have hcall : calling (.parked call) = calling (s.state.status i) := by
          rw [hi]
          rfl
        exact h.put rfl rfl fun j hj => h.unlocking j (calling_put hcall j ▸ hj)
      · refine h.put rfl rfl fun j hj => h.unlocking j ?_
        rwa [calling_put (by rw [hi]; rfl)] at hj
    · cases hu

theorem exclusive_invariant : ((lockMachine τ).under Paired).Invariant Exclusive where
  init := by
    rintro s rfl
    have hnone (i : τ) : ¬Between (⟨start false, []⟩ : Tracked τ Bool LockCall) i :=
      fun h => by cases h
    exact ⟨fun _ => hnone, fun i _ hi => absurd hi (hnone i), fun i hi => by cases hi⟩
  step := fun _ _ h ⟨_,hc,hs⟩ => h.step hc hs

end Objects

/-- No wake-up is lost while no notification laps the epoch, in a semaphore or in a lock,
and one thread at most is between `lock()` and `unlock()`. -/
theorem no_lost_wakeup (τ : Type*) [DecidableEq τ] :
    (∀ n s, ((semaphoreMachine τ n).under (NoLap semaphoreBody)).Reachable s →
      Queued s.state ∧ Covered .down s.state.data.toNat s) ∧
    (∀ s, ((lockMachine τ).under (NoLap lockBody)).Reachable s →
      Queued s.state ∧ Covered .lock (lockCount s.state.data) s) ∧
    (∀ s, ((lockMachine τ).under Paired).Reachable s →
      ∀ i j, Between s i → Between s j → i = j) := by
  refine ⟨fun n s h => ?_, fun s h => ?_, fun s h => ?_⟩
  · have he := (enough_invariant semaphoreBody_counted n.toUInt64).reachable h
    exact ⟨he.queued, he.covered fun _ => semaphoreBody_loop⟩
  · have he := lock_invariant.reachable h
    exact ⟨he.queued, he.covered fun _ => lockBody_loop⟩
  · exact (exclusive_invariant.reachable h).unique

/-- Two threads park and a third gives two units: the second `up` finds the first thread
not yet back at the lock. -/
def twoUps : List (Action Nat SemaphoreCall) :=
  [.call 0 .down, .critical 0, .postSwitch 0, .call 1 .down, .critical 1, .postSwitch 1,
    .call 3 .down, .critical 3, .postSwitch 3,
    .call 2 .up, .critical 2, .call 2 .up, .critical 2]

def handedOn : List (Action Nat LockCall) :=
  [.call 0 .lock, .critical 0, .call 1 .lock, .critical 1, .postSwitch 1, .call 2 .lock,
    .critical 2, .postSwitch 2, .call 0 .unlock, .critical 0]

theorem noLap_of_uncaptured {τ σ ρ : Type*} [DecidableEq τ] {body : σ → ρ → Outcome σ}
    {s : Tracked τ σ ρ} {a : Action τ ρ}
    (h : ∀ j call e, s.state.status j ≠ .captured call e) : NoLap body s a := by
  cases a with
  | critical i => exact fun _ _ _ _ _ _ _ j call => h j call _
  | call | retry | postSwitch => trivial

theorem no_lost_wakeup_handed :
    (Covered .down 2 ((semaphoreMachine Nat 0).run ⟨start 0, []⟩ twoUps) ∧
      ((semaphoreMachine Nat 0).run ⟨start 0, []⟩ twoUps).state.waiting = [3] ∧
      ((semaphoreMachine Nat 0).run ⟨start 0, []⟩ twoUps).runnable = [0, 1]) ∧
    (Covered .lock 1 ((lockMachine Nat).run ⟨start false, []⟩ handedOn) ∧
      ((lockMachine Nat).run ⟨start false, []⟩ handedOn).state.waiting = [2] ∧
      ((lockMachine Nat).run ⟨start false, []⟩ handedOn).runnable = [1]) ∧
    (Between ((lockMachine Nat).run ⟨start false, []⟩ (handedOn ++ [.critical 1])) 1 ∧
      ∀ i, Between ((lockMachine Nat).run ⟨start false, []⟩ (handedOn ++ [.critical 1])) i →
        i = 1) := by
  obtain ⟨hsem,hlock,hone⟩ := no_lost_wakeup Nat
  have hheld : Between ((lockMachine Nat).run ⟨start false, []⟩ (handedOn ++ [.critical 1])) 1 := by
    change lastCall _ 1 = some .lock
    decide
  refine ⟨⟨(hsem 0 _ (Machine.reachable_run (.init rfl) ?_)).2, by decide, by decide⟩,
    ⟨(hlock _ (Machine.reachable_run (.init rfl) ?_)).2, by decide, by decide⟩,
    hheld, fun i hi => hone _ (Machine.reachable_run (.init rfl) ?_) i 1 hi hheld⟩
  · refine ⟨trivial, ?_, trivial, trivial, ?_, trivial, trivial, ?_, trivial, trivial, ?_, trivial,
      ?_, trivial⟩
    all_goals
      refine noLap_of_uncaptured fun j c e h => ?_
      match j with
      | 0 | 1 | 2 | 3 => cases h
      | _+4 => cases h
  · refine ⟨trivial, ?_, trivial, ?_, trivial, trivial, ?_, trivial, trivial, ?_, trivial⟩
    all_goals
      refine noLap_of_uncaptured fun j c e h => ?_
      match j with
      | 0 | 1 | 2 => cases h
      | _+3 => cases h
  · refine ⟨trivial, trivial, trivial, trivial, trivial, trivial, trivial, trivial, ?_, trivial,
      trivial, trivial⟩
    change lastCall _ 0 = some .lock
    decide

/-! The runs that the condition leaves out. -/

/-- A thread on its way into the queue since epoch 0, and a count that `up` has raised to
`k` since the epoch was 1. -/
def Raised (k : Nat) (s : Tracked Nat UInt64 SemaphoreCall) : Prop :=
  s.state.data = UInt64.ofNat k ∧ s.state.epoch = (k+1) % 2^64 ∧ s.state.waiting = [] ∧
    s.runnable = [] ∧ s.state.status 0 = .captured .down 0 ∧ s.state.status 1 = .outside

theorem raised_up {k : Nat} {s : Tracked Nat UInt64 SemaphoreCall} (h : Raised k s) :
    ∃ t u, (semaphoreMachine Nat 0).step s (.call 1 .up) = some t ∧
      (semaphoreMachine Nat 0).step t (.critical 1) = some u ∧ Raised (k+1) u := by
  obtain ⟨hd,he,hw,hr,h0,h1⟩ := h
  refine ⟨⟨s.state.put 1 (.inside .up), s.runnable ++ []⟩,
    ⟨((s.state.put 1 (.inside .up)).notify .one).leave 1 .up (s.state.data+1) 0,
      (s.runnable ++ []).erase 1 ++ woken (s.state.put 1 (.inside .up)) .one⟩, ?_, ?_,
    ?_, ?_, ?_, ?_, ?_, ?_⟩
  · simp only [semaphoreMachine, trackedMachine, trackedStep, Conditions.step, h1, remaining,
      returned, Option.map_some]
  · simp [semaphoreMachine, trackedMachine, trackedStep, Conditions.step, remaining, returned,
      semaphoreBody, State.put]
  · change s.state.data+1 = _
    rw [hd, UInt64.ofNat_add]
    rfl
  · change nextEpoch s.state.epoch = _
    rw [he, nextEpoch, Nat.mod_add_mod]
  · change s.state.waiting.drop 1 = []
    rw [hw]
    rfl
  · change (s.runnable ++ []).erase 1 ++ s.state.waiting.take 1 = []
    rw [hr, hw]
    rfl
  · have hin : (s.state.put 1 (.inside .up)).status 0 = .captured .down 0 := h0
    have hwake := (wake_captured ((s.state.put 1 (.inside .up)).waiting.take 1) _).mpr hin
    exact (put_status ((s.state.put 1 (.inside .up)).notify .one) 1 0 .outside).trans
      ((if_neg (by decide)).trans hwake)
  · exact put_status ((s.state.put 1 (.inside .up)).notify .one) 1 1 .outside

theorem raised_reachable (k : Nat) :
    ∃ s, (semaphoreMachine Nat 0).system.Reachable s ∧ Raised k s := by
  induction k with
  | zero =>
    refine ⟨(semaphoreMachine Nat 0).run ⟨start 0, []⟩ [.call 0 .down, .critical 0, .call 1 .up,
      .critical 1, .call 1 .down, .critical 1],
      Machine.reachable_run (.init rfl) Machine.allowed_true, by decide, by decide, by decide,
      by decide, by decide, by decide⟩
  | succ k ih =>
    obtain ⟨s,hs,hk⟩ := ih
    obtain ⟨t,u,ht,hu,hk⟩ := raised_up hk
    exact ⟨u, (hs.step ⟨_, trivial, ht⟩).step ⟨_, trivial, hu⟩, hk⟩

/-- A thread parks although the count is positive and nobody is in the loop, after as many
notifications as the epoch has values; and a lock that a third thread unlocks is taken twice. -/
theorem wakeup_lost :
    (∃ s, (semaphoreMachine Nat 0).system.Reachable s ∧ s.state.waiting = [0] ∧
      s.runnable = [] ∧ s.state.data = UInt64.ofNat (2^64-1)) ∧
    (∃ s, (lockMachine Nat).system.Reachable s ∧ Between s 0 ∧ Between s 2) := by
  refine ⟨?_, ?_⟩
  · obtain ⟨s,hs,hd,he,hw,hr,h0,-⟩ := raised_reachable (2^64-1)
    have he0 : s.state.epoch = 0 := he
    have hpark : (semaphoreMachine Nat 0).step s (.postSwitch 0) =
        some ⟨{ s.state.put 0 (.parked .down) with waiting := s.state.waiting ++ [0] },
          s.runnable ++ []⟩ := by
      simp only [semaphoreMachine, trackedMachine, trackedStep, Conditions.step, h0, he0, if_true,
        remaining, returned, Option.map_some]
    refine ⟨_, hs.step ⟨_, trivial, hpark⟩, ?_, ?_, hd⟩
    · change s.state.waiting ++ [0] = [0]
      rw [hw]
      rfl
    · change s.runnable ++ [] = []
      rw [hr]
      rfl
  · refine ⟨(lockMachine Nat).run ⟨start false, []⟩ [.call 0 .lock, .critical 0, .call 1 .unlock,
      .critical 1, .call 2 .lock, .critical 2],
      Machine.reachable_run (.init rfl) Machine.allowed_true, ?_, ?_⟩
    · change lastCall _ 0 = some .lock
      decide
    · change lastCall _ 2 = some .lock
      decide

end NetKernel.WakeUps
