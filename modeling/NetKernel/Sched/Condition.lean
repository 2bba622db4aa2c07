import Mathlib.Algebra.Group.Nat.Defs
import Mathlib.Data.List.Nodup
import NetKernel.Lib.Runs

/-! `Condition`: waiting under a spin lock with an epoch, and the park that the next
thread on the core performs in `post_switch`. The code around it is a `body`: one
section under the lock, from taking it to giving it up. -/
namespace NetKernel.Conditions
open Runs

/-- How a section gives the lock up: plainly, by `notify_one` or by `notify_all`. -/
inductive Wake where
  | nobody | one | all
deriving DecidableEq, Repr

/-- A section either waits, to run again from the lock, or is the last of its call. -/
inductive Outcome (σ : Type*) where
  | wait
  | leave (data : σ) (wakes : Wake) (result : Int)
deriving DecidableEq, Repr

/-- Where a thread is: in no call, about to take the lock, in `wait` with `cond_epoch`
captured and the lock released, or in the waiting queue. -/
inductive Status (ρ : Type*) where
  | outside
  | inside (call : ρ)
  | captured (call : ρ) (condEpoch : Nat)
  | parked (call : ρ)
deriving DecidableEq, Repr

structure State (τ σ ρ : Type*) where
  data : σ
  status : τ → Status ρ
  waiting : List τ
  epoch : Nat
  results : List (τ × ρ × Int)

/-- `retry` is `wait` finding no next thread, `postSwitch` the section of `post_switch`
after the switch to one. -/
inductive Action (τ ρ : Type*) where
  | call (i : τ) (call : ρ)
  | critical (i : τ)
  | retry (i : τ)
  | postSwitch (i : τ)
deriving DecidableEq, Repr

variable {τ σ ρ : Type*} [DecidableEq τ]

/-- `epoch += 1`. -/
def nextEpoch (epoch : Nat) : Nat := (epoch+1) % 2^64

/-- The threads taken off the queue go to the ready queue and from there to the lock. -/
def wake (woken : List τ) (status : τ → Status ρ) : τ → Status ρ := fun i =>
  if i ∈ woken then
    match status i with
    | .parked call => .inside call
    | other => other
  else status i

/-- `unlock`, `notify_one` or `notify_all`. -/
def State.notify (s : State τ σ ρ) : Wake → State τ σ ρ
  | .nobody => s
  | .one => { s with
      status := wake (s.waiting.take 1) s.status
      waiting := s.waiting.drop 1
      epoch := nextEpoch s.epoch }
  | .all => { s with
      status := wake s.waiting s.status
      waiting := []
      epoch := nextEpoch s.epoch }

def State.put (s : State τ σ ρ) (i : τ) (status : Status ρ) : State τ σ ρ :=
  { s with status := Function.update s.status i status }

def State.leave (s : State τ σ ρ) (i : τ) (call : ρ) (data : σ) (result : Int) : State τ σ ρ :=
  { s.put i .outside with data := data, results := s.results ++ [(i, call, result)] }

def step (body : σ → ρ → Outcome σ) (s : State τ σ ρ) : Action τ ρ → Option (State τ σ ρ)
  | .call i call =>
    match s.status i with
    | .outside => some (s.put i (.inside call))
    | _ => none
  | .critical i =>
    match s.status i with
    | .inside call =>
      match body s.data call with
      | .wait => some (s.put i (.captured call s.epoch))
      | .leave data wakes result => some ((s.notify wakes).leave i call data result)
    | _ => none
  | .retry i =>
    match s.status i with
    | .captured call _ => some (s.put i (.inside call))
    | _ => none
  | .postSwitch i =>
    match s.status i with
    | .captured call condEpoch =>
      if s.epoch = condEpoch then
        some { s.put i (.parked call) with waiting := s.waiting ++ [i] }
      else some (s.put i (.inside call))
    | _ => none

/-- No thread in a call, an empty queue and a fresh condition. -/
def start (data : σ) : State τ σ ρ := ⟨data, fun _ => .outside, [], 0, []⟩

/-- An object with a spin lock and a condition. -/
def machine (τ : Type*) [DecidableEq τ] (body : σ → ρ → Outcome σ) (data : σ) :
    Machine (State τ σ ρ) (Action τ ρ) where
  Init s := s = start data
  step := step body

variable {body : σ → ρ → Outcome σ} {s t : State τ σ ρ} {i j : τ} {call : ρ}

/-! The status of a thread after one thread's has changed. -/

theorem put_status (s : State τ σ ρ) (i j : τ) (status : Status ρ) :
    (s.put i status).status j = if j = i then status else s.status j :=
  Function.update_apply _ _ _ _

theorem put_self {status : Status ρ} : (s.put i status).status i = status :=
  Function.update_self _ _ _

theorem put_other {status : Status ρ} (hj : j ≠ i) : (s.put i status).status j = s.status j :=
  Function.update_of_ne hj _ _

/-! The waiting queue holds the parked threads. -/

structure Queued (s : State τ σ ρ) : Prop where
  nodup : s.waiting.Nodup
  mem : ∀ i, i ∈ s.waiting ↔ ∃ call, s.status i = .parked call

theorem wake_parked (woken : List τ) (status : τ → Status ρ) :
    wake woken status i = .parked call ↔ i ∉ woken ∧ status i = .parked call := by
  unfold wake
  by_cases hi : i ∈ woken
  · rw [if_pos hi]
    cases status i <;> simp [hi]
  · simp [hi]

theorem wake_captured {e : Nat} (woken : List τ) (status : τ → Status ρ) :
    wake woken status i = .captured call e ↔ status i = .captured call e := by
  unfold wake
  by_cases hi : i ∈ woken
  · rw [if_pos hi]
    cases status i <;> simp
  · rw [if_neg hi]

theorem Queued.wake (h : Queued s) (n : Nat) :
    Queued { s with status := wake (s.waiting.take n) s.status, waiting := s.waiting.drop n } := by
  refine ⟨h.nodup.sublist (List.drop_sublist n _), fun i => ?_⟩
  simp only [wake_parked]
  have hsplit : i ∈ s.waiting ↔ i ∈ s.waiting.take n ∨ i ∈ s.waiting.drop n := by
    rw [← List.mem_append, List.take_append_drop]
  have hdisj : i ∈ s.waiting.take n → i ∉ s.waiting.drop n := by
    have hn := h.nodup
    rw [← List.take_append_drop n s.waiting] at hn
    exact fun ht hd => (List.nodup_append.mp hn).2.2 i ht i hd rfl
  constructor
  · intro hd
    obtain ⟨call,hc⟩ := (h.mem i).mp (hsplit.mpr (Or.inr hd))
    exact ⟨call, fun ht => hdisj ht hd, hc⟩
  · rintro ⟨call,hn,hc⟩
    exact (hsplit.mp ((h.mem i).mpr ⟨call, hc⟩)).resolve_left hn

theorem Queued.notify (h : Queued s) (w : Wake) : Queued (s.notify w) := by
  cases w with
  | nobody => exact h
  | one => exact ⟨(h.wake 1).nodup, (h.wake 1).mem⟩
  | all =>
    have hall := h.wake s.waiting.length
    rw [List.take_length, List.drop_length] at hall
    exact ⟨hall.nodup, hall.mem⟩

theorem Queued.put {status : Status ρ} (h : Queued s) (hi : ∀ call, s.status i ≠ .parked call)
    (hs : ∀ call, status ≠ .parked call) : Queued (s.put i status) := by
  refine ⟨h.nodup, fun j => ?_⟩
  by_cases hj : j = i
  · subst hj
    rw [put_self]
    exact (h.mem j).trans
      ⟨fun ⟨call,hc⟩ => absurd hc (hi call), fun ⟨call,hc⟩ => absurd hc (hs call)⟩
  · simp only [put_other hj]
    exact h.mem j

theorem notify_status_inside (w : Wake) (hi : s.status i = .inside call) :
    (s.notify w).status i = .inside call := by
  cases w with
  | nobody => exact hi
  | one | all =>
    simp only [State.notify, wake, hi]
    split <;> rfl

theorem step_cases {a : Action τ ρ} (h : step body s a = some t) :
    (∃ i call, s.status i = .outside ∧ t = s.put i (.inside call)) ∨
    (∃ i call, a = .critical i ∧ s.status i = .inside call ∧ body s.data call = .wait ∧
      t = s.put i (.captured call s.epoch)) ∨
    (∃ i call data w result, a = .critical i ∧ s.status i = .inside call ∧
      body s.data call = .leave data w result ∧ t = (s.notify w).leave i call data result) ∨
    (∃ i call e, s.status i = .captured call e ∧ t = s.put i (.inside call)) ∨
    (∃ i call, s.status i = .captured call s.epoch ∧
      t = { s.put i (.parked call) with waiting := s.waiting ++ [i] }) := by
  cases a with
  | call i call =>
    simp only [step] at h
    split at h
    · exact Or.inl ⟨i, call, ‹_›, (Option.some.inj h).symm⟩
    · cases h
  | critical i =>
    simp only [step] at h
    split at h
    · split at h
      · exact Or.inr (Or.inl ⟨i, _, rfl, ‹_›, ‹_›, (Option.some.inj h).symm⟩)
      · exact Or.inr (Or.inr (Or.inl ⟨i, _, _, _, _, rfl, ‹_›, ‹_›, (Option.some.inj h).symm⟩))
    · cases h
  | retry i =>
    simp only [step] at h
    split at h
    · exact Or.inr (Or.inr (Or.inr (Or.inl ⟨i, _, _, ‹_›, (Option.some.inj h).symm⟩)))
    · cases h
  | postSwitch i =>
    simp only [step] at h
    split at h
    · rename_i call e hi
      split at h
      · rename_i he
        subst he
        exact Or.inr (Or.inr (Or.inr (Or.inr ⟨i, call, hi, (Option.some.inj h).symm⟩)))
      · exact Or.inr (Or.inr (Or.inr (Or.inl ⟨i, call, e, hi, (Option.some.inj h).symm⟩)))
    · cases h

theorem Queued.park (h : Queued s) {e : Nat} (hi : s.status i = .captured call e) :
    Queued { s.put i (.parked call) with waiting := s.waiting ++ [i] } := by
  have hnot : i ∉ s.waiting := by
    rw [h.mem, hi]
    rintro ⟨c,hc⟩
    cases hc
  refine ⟨List.nodup_append.mpr ⟨h.nodup, List.nodup_singleton i, ?_⟩, fun j => ?_⟩
  · rintro a ha b hb rfl
    exact hnot (List.mem_singleton.mp hb ▸ ha)
  · simp only [State.put, List.mem_append, List.mem_singleton]
    by_cases hj : j = i
    · subst hj
      simp
    · simp only [Function.update_of_ne hj, hj, or_false]
      exact h.mem j

theorem Queued.step {a : Action τ ρ} (h : Queued s) (hs : Conditions.step body s a = some t) :
    Queued t := by
  obtain ⟨i,call,hi,rfl⟩ | ⟨i,call,-,hi,-,rfl⟩ | ⟨i,call,data,w,result,-,hi,-,rfl⟩ |
    ⟨i,call,e,hi,rfl⟩ | ⟨i,call,hi,rfl⟩ := step_cases hs
  · exact h.put (by simp [hi]) (by simp)
  · exact h.put (by simp [hi]) (by simp)
  · have hput : Queued ((s.notify w).put i .outside) :=
      (h.notify w).put (by simp [notify_status_inside w hi]) (by simp)
    exact ⟨hput.nodup, hput.mem⟩
  · exact h.put (by simp [hi]) (by simp)
  · exact h.park hi

/-! Sleepers and the sections that must wake them. -/

/-- A thread that is parked, or that will be when its `post_switch` finds the epoch
as it was. -/
def Sleeps (s : State τ σ ρ) (i : τ) (call : ρ) : Prop :=
  s.status i = .parked call ∨ s.status i = .captured call s.epoch

/-- No sleeper's section would do anything but wait. -/
def Asleep (body : σ → ρ → Outcome σ) (s : State τ σ ρ) : Prop :=
  ∀ i call, Sleeps s i call → body s.data call = .wait

/-- The sleepers a section leaves asleep have still to wait. -/
def Heeds (body : σ → ρ → Outcome σ) (s : State τ σ ρ) (i : τ) : Prop :=
  ∀ call data w result, s.status i = .inside call → body s.data call = .leave data w result →
    ∀ j call', j ≠ i → Sleeps (s.notify w) j call' → body data call' = .wait

/-- The sleepers after a thread's status has changed: that thread, or one from before. -/
theorem sleeps_put {status : Status ρ} (h : Sleeps (s.put i status) j call) :
    status = .parked call ∨ status = .captured call s.epoch ∨ Sleeps s j call := by
  rw [Sleeps, put_status] at h
  split at h
  · exact h.imp_right Or.inl
  · exact Or.inr (Or.inr h)

theorem sleeps_leave {call' : ρ} {data : σ} {result : Int}
    (h : Sleeps (s.leave i call data result) j call') : j ≠ i ∧ Sleeps s j call' := by
  have hput : Sleeps (s.put i .outside) j call' := h
  refine ⟨fun hji => ?_, ?_⟩
  · rw [hji, Sleeps, put_self] at hput
    simp at hput
  · simpa using sleeps_put hput

theorem Asleep.put {status : Status ρ} (h : Asleep body s)
    (hs : ∀ call, status = .parked call ∨ status = .captured call s.epoch →
      body s.data call = .wait) : Asleep body (s.put i status) := by
  intro j call hj
  obtain hj | hj | hj := sleeps_put hj
  · exact hs call (Or.inl hj)
  · exact hs call (Or.inr hj)
  · exact h j call hj

theorem Asleep.step {a : Action τ ρ} (h : Asleep body s)
    (hheed : ∀ i, a = .critical i → Heeds body s i)
    (hs : Conditions.step body s a = some t) : Asleep body t := by
  obtain ⟨i,call,-,rfl⟩ | ⟨i,call,-,-,hb,rfl⟩ | ⟨i,call,data,w,result,rfl,hi,hb,rfl⟩ |
    ⟨i,call,e,-,rfl⟩ | ⟨i,call,hi,rfl⟩ := step_cases hs
  · exact h.put (by simp)
  · refine h.put fun call' hc => ?_
    simp only [reduceCtorEq, Status.captured.injEq, false_or, and_true] at hc
    exact hc ▸ hb
  · intro j call' hj
    obtain ⟨hji,hj⟩ := sleeps_leave hj
    exact hheed i rfl call data w result hi hb j call' hji hj
  · exact h.put (by simp)
  · have hb := h i call (Or.inr hi)
    exact h.put (s := s) (i := i) fun call' hc => by
      simp only [Status.parked.injEq, reduceCtorEq, or_false] at hc
      exact hc ▸ hb

/-- Nobody sleeps past `notify_all`, but a thread that captured the epoch it moves to. -/
theorem sleeps_notify_all (hq : Queued s) (h : Sleeps (s.notify .all) i call) :
    s.status i = .captured call (nextEpoch s.epoch) := by
  simp only [Sleeps, State.notify, wake_parked, wake_captured] at h
  cases h with
  | inl hp => exact absurd ((hq.mem i).mpr ⟨call, hp.2⟩) hp.1
  | inr hc => exact hc

end NetKernel.Conditions
