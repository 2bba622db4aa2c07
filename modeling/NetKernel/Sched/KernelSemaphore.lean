import NetKernel.Sched.Condition

/-! The System V semaphore: `semaphore_op` and the removal by `semctl`, and which of
its sections leave a waiter asleep that could go on. -/
namespace NetKernel.KernelSemaphores
open Runs Conditions

/-- `value` is a 32-bit `int`. -/
structure KernelSemaphore where
  value : Int
  removed : Bool
  range : -2147483648 ≤ value ∧ value < 2147483648
deriving DecidableEq, Repr

/-- `sem->value = value`, reduced to 32 bits. -/
def KernelSemaphore.store (sem : KernelSemaphore) (value : Int) : KernelSemaphore where
  value := value.bmod 4294967296
  removed := sem.removed
  range := by
    rw [Int.bmod_def]
    split <;> omega

/-- What `semget` makes. -/
def newSemaphore : KernelSemaphore := ⟨0, false, by decide⟩

/-- The calls on one semaphore: `semop` with its `short`, and `semctl` with `IPC_RMID`. -/
inductive SemCall where
  | semop (op : Int16)
  | rmid
deriving DecidableEq

/-- One section of `semaphore_op` under `sem->lock`. The loops test what the function
tests on entry, so the first section and the later ones are the same code. -/
def semaphoreOp (sem : KernelSemaphore) (op : Int16) : Outcome KernelSemaphore :=
  if sem.removed then .leave sem .nobody (-1)
  else if 0 < op.toInt then .leave (sem.store (sem.value+op.toInt)) .all 0
  else if op.toInt = 0 then
    if sem.value ≠ 0 then .wait else .leave sem .nobody 0
  else
    let need := -op.toInt
    if sem.value < need then .wait else .leave (sem.store (sem.value-need)) .nobody 0

def semaphoreBody (sem : KernelSemaphore) : SemCall → Outcome KernelSemaphore
  | .semop op => semaphoreOp sem op
  | .rmid => .leave { sem with removed := true } .all 0

abbrev SemState := State Nat KernelSemaphore SemCall

def semMachine : Machine SemState (Action Nat SemCall) := machine Nat semaphoreBody newSemaphore

/-- No thread in the waiting queue has a pending operation that could go on. -/
def NoSleeper (s : SemState) : Prop :=
  ∀ i op, i ∈ s.waiting → s.status i = .parked (.semop op) →
    (op.toInt = 0 → s.data.value ≠ 0) ∧ (op.toInt < 0 → s.data.value < -op.toInt) ∧
      s.data.removed = false

/-- A decrement that takes the value to exactly zero. -/
def Drains (sem : KernelSemaphore) : SemCall → Prop
  | .semop op => sem.removed = false ∧ op.toInt < 0 ∧ sem.value = -op.toInt
  | .rmid => False

/-- A call whose section ends in `notify_all`. -/
def Notifies (sem : KernelSemaphore) : SemCall → Prop
  | .semop op => sem.removed = false ∧ 0 < op.toInt
  | .rmid => True

/-- A decrement to zero while no zero-waiter sleeps, and a notification that does not
bring the 64-bit epoch round to one a waiter still holds. -/
def Heeded (s : SemState) : Action Nat SemCall → Prop
  | .critical i => ∀ call, s.status i = .inside call →
    (Drains s.data call → ∀ j op, Sleeps s j (.semop op) → op.toInt ≠ 0) ∧
      (Notifies s.data call → ∀ j call', s.status j ≠ .captured call' (nextEpoch s.epoch))
  | _ => True

variable {sem : KernelSemaphore} {op : Int16} {call : SemCall} {s t : SemState}

theorem semaphoreOp_wait : semaphoreOp sem op = .wait ↔
    sem.removed = false ∧ (op.toInt = 0 ∧ sem.value ≠ 0 ∨ op.toInt < 0 ∧ sem.value < -op.toInt) := by
  unfold semaphoreOp
  cases hr : sem.removed with
  | true => simp
  | false =>
    simp only [Bool.false_eq_true, if_false, true_and]
    by_cases hpos : 0 < op.toInt
    · simp only [if_pos hpos, reduceCtorEq, false_iff]
      omega
    · rw [if_neg hpos]
      by_cases hz : op.toInt = 0
      · simp only [if_pos hz]
        by_cases hv : sem.value = 0
        · simp [hv, hz]
        · simp [hv, hz]
      · simp only [if_neg hz]
        by_cases hv : sem.value < -op.toInt
        · simp only [if_pos hv, true_iff]
          exact Or.inr ⟨by omega, hv⟩
        · simp only [if_neg hv, reduceCtorEq, false_iff]
          omega

theorem semaphoreBody_leave {data : KernelSemaphore} {w : Wake} {result : Int}
    (h : semaphoreBody sem call = .leave data w result) :
    w = .all ∧ Notifies sem call ∨ w = .nobody ∧ data = sem ∨
      ∃ op, call = .semop op ∧ w = .nobody ∧ sem.removed = false ∧ op.toInt < 0 ∧
        -op.toInt ≤ sem.value ∧ data = sem.store (sem.value+op.toInt) := by
  cases call with
  | rmid =>
    injection h with _ hw
    exact Or.inl ⟨hw.symm, trivial⟩
  | semop op =>
    simp only [semaphoreBody, semaphoreOp] at h
    split at h
    · injection h with hd hw
      exact Or.inr (Or.inl ⟨hw.symm, hd.symm⟩)
    rename_i hr
    split at h
    · rename_i hpos
      injection h with _ hw
      exact Or.inl ⟨hw.symm, by simpa using hr, hpos⟩
    split at h
    · split at h
      · cases h
      · injection h with hd hw
        exact Or.inr (Or.inl ⟨hw.symm, hd.symm⟩)
    · split at h
      · cases h
      · injection h with hd hw
        refine Or.inr (Or.inr ⟨op, rfl, hw.symm, by simpa using hr, by omega, by omega, ?_⟩)
        rw [← hd]
        congr 1
        omega

theorem semaphoreBody_decrement {call' : SemCall} (hneg : op.toInt < 0)
    (hle : -op.toInt ≤ sem.value) (hw : semaphoreBody sem call' = .wait)
    (hz : sem.value = -op.toInt → ∀ op', call' = .semop op' → op'.toInt ≠ 0) :
    semaphoreBody (sem.store (sem.value+op.toInt)) call' = .wait := by
  cases call' with
  | rmid => cases hw
  | semop op' =>
    have hv : (sem.store (sem.value+op.toInt)).value = sem.value+op.toInt := by
      have hr := sem.range
      change (sem.value+op.toInt).bmod _ = _
      rw [Int.bmod_def]
      split <;> omega
    obtain ⟨hr,hcase⟩ := semaphoreOp_wait.mp hw
    refine semaphoreOp_wait.mpr ⟨hr, ?_⟩
    rw [hv]
    cases hcase with
    | inl h0 => exact Or.inl ⟨h0.1, fun heq => hz (by omega) op' rfl h0.1⟩
    | inr hn => exact Or.inr ⟨hn.1, by omega⟩

theorem heeds_of_heeded {i : Nat} (hq : Queued s) (ha : Asleep semaphoreBody s)
    (h : Heeded s (.critical i)) : Heeds semaphoreBody s i := by
  intro call data w result hi hb j call' hji hj
  obtain ⟨hdrain,hnotify⟩ := h call hi
  obtain ⟨rfl,hn⟩ | ⟨rfl,rfl⟩ | ⟨op,rfl,rfl,hr,hneg,hle,rfl⟩ := semaphoreBody_leave hb
  · exact absurd (sleeps_notify_all hq hj) (hnotify hn j call')
  · exact ha j call' hj
  · refine semaphoreBody_decrement hneg hle (ha j call' hj) fun heq op' hc => ?_
    subst hc
    exact hdrain ⟨hr, hneg, heq⟩ j op' hj

theorem inv_invariant :
    (semMachine.under Heeded).Invariant fun s => Queued s ∧ Asleep semaphoreBody s where
  init := by
    rintro s rfl
    exact ⟨⟨List.nodup_nil, fun i => by simp [start]⟩, fun i call h => by simp [start, Sleeps] at h⟩
  step := by
    rintro s t ⟨hq,ha⟩ ⟨a,hc,hs⟩
    exact ⟨hq.step hs, ha.step (fun i hi => heeds_of_heeded hq ha (hi ▸ hc)) hs⟩

/-- In a run whose sections heed the sleepers, no waiter sleeps while it could go on. -/
theorem no_sleeper (h : (semMachine.under Heeded).Reachable s) : NoSleeper s := by
  obtain ⟨-,ha⟩ := inv_invariant.reachable h
  intro i op _ hp
  obtain ⟨hr,hcase⟩ := semaphoreOp_wait.mp (ha i (.semop op) (Or.inl hp))
  exact ⟨by omega, by omega, hr⟩

/-- A waiter for two units parks, is woken by one and parks again. -/
def wokenRun : List (Action Nat SemCall) :=
  [.call 0 (.semop (-2)), .critical 0, .postSwitch 0, .call 1 (.semop 1), .critical 1,
    .critical 0, .postSwitch 0]

theorem no_sleeper_woken : NoSleeper (semMachine.run (start newSemaphore) wokenRun) ∧
    (semMachine.run (start newSemaphore) wokenRun).waiting = [0] := by
  refine ⟨no_sleeper (Machine.reachable_run (.init rfl) ?_), by decide⟩
  have hquiet (sem : KernelSemaphore) (h : ¬sem.value = 2) :
      ¬Drains sem (.semop (-2)) ∧ ¬Notifies sem (.semop (-2)) :=
    ⟨fun hd => h hd.2.2, fun hn => absurd hn.2 (by decide)⟩
  refine ⟨trivial, ?_, trivial, trivial, ?_, ?_, trivial, trivial⟩
  · rintro call ⟨⟩
    exact ⟨fun h => absurd h (hquiet _ (by decide)).1, fun h => absurd h (hquiet _ (by decide)).2⟩
  · rintro call ⟨⟩
    refine ⟨fun h => absurd h.2.1 (by decide), fun _ j call' hj => ?_⟩
    match j with
    | 0 => cases hj
    | 1 => cases hj
    | _+2 => cases hj
  · rintro call ⟨⟩
    exact ⟨fun h => absurd h (hquiet _ (by decide)).1, fun h => absurd h (hquiet _ (by decide)).2⟩

/-- A zero-waiter parks at value 1 and is not woken by the decrement to 0. -/
def drainedRun : List (Action Nat SemCall) :=
  [.call 0 (.semop 1), .critical 0, .call 1 (.semop 0), .critical 1, .postSwitch 1,
    .call 2 (.semop (-1)), .critical 2]

/-- The decrement to zero wakes nobody, and the zero-waiter stays in the queue. -/
theorem zero_waiter_sleeps : ∃ s, semMachine.system.Reachable s ∧ ¬NoSleeper s := by
  have hr : semMachine.system.Reachable (semMachine.run (start newSemaphore) drainedRun) :=
    Machine.reachable_run (.init rfl) Machine.allowed_true
  refine ⟨_, hr, fun h => ?_⟩
  exact (h 1 0 (by decide) (by decide)).1 (by decide) (by decide)

end NetKernel.KernelSemaphores
