import NetKernel.Sched.KernelSemaphore
import Mathlib.Algebra.BigOperators.Group.List.Basic
import Mathlib.Algebra.Ring.Int.Defs

/-! The value of a System V semaphore against the sum of the operations applied to it. The
value is an `int` that increments may take beyond its range. -/
namespace NetKernel.SemaphoreValues
open Runs Conditions KernelSemaphores

/-- What a finished call has added: the operation of a `semop` that returns 0. -/
def applied : Nat × SemCall × Int → Int
  | (_, .semop op, result) => if result = 0 then op.toInt else 0
  | (_, .rmid, _) => 0

/-- The exact sum over the finished calls. A call applies its operation and finishes in one
section under the lock. -/
def appliedSum (s : SemState) : Int := (s.results.map applied).sum

/-- The value is the sum of the operations applied, and not negative. -/
def Exact (s : SemState) : Prop := s.data.value = appliedSum s ∧ 0 ≤ s.data.value

/-- A section under the lock that takes the value no further than the largest `int`. -/
def InRange (s : SemState) : Action Nat SemCall → Prop
  | .critical i => ∀ op, s.status i = .inside (.semop op) → s.data.removed = false →
      s.data.value+op.toInt < 2147483648
  | _ => True

variable {s t : SemState} {sem data : KernelSemaphore} {call : SemCall} {w : Wake} {result : Int}
  {i : Nat}

theorem store_value {value : Int} (hlo : -2147483648 ≤ value) (hhi : value < 2147483648) :
    (sem.store value).value = value := by
  change value.bmod 4294967296 = value
  rw [Int.bmod_def]
  split <;> omega

theorem semaphoreBody_value (h0 : 0 ≤ sem.value)
    (hr : ∀ op, call = .semop op → sem.removed = false → sem.value+op.toInt < 2147483648)
    (h : semaphoreBody sem call = .leave data w result) :
    data.value = sem.value+applied (i, call, result) ∧ 0 ≤ data.value := by
  have hrange := sem.range
  cases call with
  | rmid =>
    obtain ⟨rfl,-⟩ := Outcome.leave.inj h
    exact ⟨(Int.add_zero _).symm, h0⟩
  | semop op =>
    rw [semaphoreBody, semaphoreOp] at h
    by_cases hrem : sem.removed = true
    · rw [if_pos hrem] at h
      obtain ⟨rfl,-,rfl⟩ := Outcome.leave.inj h
      exact ⟨(Int.add_zero _).symm, h0⟩
    · have hle := hr op rfl (Bool.not_eq_true _ ▸ hrem)
      rw [if_neg hrem] at h
      by_cases hpos : 0 < op.toInt
      · rw [if_pos hpos] at h
        obtain ⟨rfl,-,rfl⟩ := Outcome.leave.inj h
        rw [store_value (by omega) hle]
        exact ⟨rfl, by omega⟩
      · rw [if_neg hpos] at h
        by_cases hz : op.toInt = 0
        · rw [if_pos hz] at h
          split at h
          · cases h
          · obtain ⟨rfl,-,rfl⟩ := Outcome.leave.inj h
            simp [applied, hz, h0]
        · rw [if_neg hz] at h
          dsimp only at h
          split at h
          · cases h
          · obtain ⟨rfl,-,rfl⟩ := Outcome.leave.inj h
            rw [store_value (by omega) (by omega)]
            exact ⟨Int.sub_neg _ _, by omega⟩

theorem notify_data (w : Wake) : (s.notify w).data = s.data ∧ (s.notify w).results = s.results := by
  cases w <;> exact ⟨rfl, rfl⟩

theorem Exact.step {a : Action Nat SemCall} (h : Exact s) (hr : InRange s a)
    (hs : Conditions.step semaphoreBody s a = some t) : Exact t := by
  obtain ⟨j,call,-,rfl⟩ | ⟨j,call,-,-,-,rfl⟩ | ⟨j,call,data,w,result,rfl,hj,hb,rfl⟩ |
    ⟨j,call,e,-,rfl⟩ | ⟨j,call,-,rfl⟩ := step_cases hs
  · exact h
  · exact h
  · obtain ⟨hv,h0⟩ := semaphoreBody_value (i := j) h.2 (fun op hc hrem => hr op (hc ▸ hj) hrem) hb
    refine ⟨?_, h0⟩
    change data.value = (((s.notify w).results ++ [(j, call, result)]).map applied).sum
    rw [(notify_data w).2, List.map_append, List.sum_append, List.map_singleton,
      List.sum_singleton, hv, h.1, appliedSum]
  · exact h
  · exact h

theorem exact_invariant : (semMachine.under InRange).Invariant Exact where
  init := by
    rintro s rfl
    exact ⟨rfl, Int.le_refl 0⟩
  step := by
    rintro s t h ⟨a,hc,hs⟩
    exact h.step hc hs

/-- In a run whose increments stay within an `int`, the value is the exact sum of the
operations applied, and never negative. -/
theorem semaphore_value (h : (semMachine.under InRange).Reachable s) : Exact s :=
  exact_invariant.reachable h

instance (s : SemState) : ∀ a, Decidable (InRange s a)
  | .critical i =>
    match hi : s.status i with
    | .inside (.semop op) => decidable_of_iff
        (s.data.removed = false → s.data.value+op.toInt < 2147483648) (by simp [InRange, hi])
    | .inside .rmid => isTrue fun op h => by rw [hi] at h; cases h
    | .outside => isTrue fun op h => by rw [hi] at h; cases h
    | .captured _ _ => isTrue fun op h => by rw [hi] at h; cases h
    | .parked _ => isTrue fun op h => by rw [hi] at h; cases h
  | .call _ _ => isTrue trivial
  | .retry _ => isTrue trivial
  | .postSwitch _ => isTrue trivial

theorem semaphore_value_small :
    Exact (semMachine.run (start newSemaphore) [.call 0 (.semop 5), .critical 0,
      .call 1 (.semop (-3)), .critical 1]) :=
  semaphore_value (Machine.reachable_run (.init rfl) (by decide))

/-! Increments of the largest `short`, one after the other. -/

/-- One thread has finished `n` of them. -/
def Incremented (n : Nat) (s : SemState) : Prop :=
  s.data.value = 32767*n ∧ s.data.removed = false ∧ s.status 0 = .outside

theorem increment (s : SemState) (hr : s.data.removed = false) (h0 : s.status 0 = .outside) :
    ∃ t u, semMachine.step s (.call 0 (.semop 32767)) = some t ∧
      semMachine.step t (.critical 0) = some u ∧
      u.data = s.data.store (s.data.value+32767) ∧ u.status 0 = .outside := by
  have hcall : semMachine.step s (.call 0 (.semop 32767)) =
      some (s.put 0 (.inside (.semop 32767))) := by
    simp only [semMachine, machine, Conditions.step, h0]
  have hin : (s.put 0 (.inside (.semop 32767))).status 0 = .inside (.semop 32767) := by
    simp [State.put]
  have hbody : semaphoreBody s.data (.semop 32767) =
      .leave (s.data.store (s.data.value+32767)) .all 0 := by
    rw [semaphoreBody, semaphoreOp, hr, if_neg Bool.false_ne_true, if_pos (by decide)]
    rfl
  have hcritical : semMachine.step (s.put 0 (.inside (.semop 32767))) (.critical 0) =
      some (((s.put 0 (.inside (.semop 32767))).notify .all).leave 0 (.semop 32767)
        (s.data.store (s.data.value+32767)) 0) := by
    simp only [semMachine, machine, Conditions.step, hin]
    rw [show (s.put 0 (.inside (.semop 32767))).data = s.data from rfl, hbody]
  exact ⟨_, _, hcall, hcritical, rfl, by simp [State.leave, State.put]⟩

theorem incremented_reachable (n : Nat) (hn : n ≤ 65538) :
    ∃ s, semMachine.system.Reachable s ∧ Incremented n s := by
  induction n with
  | zero => exact ⟨start newSemaphore, .init rfl, rfl, rfl, rfl⟩
  | succ n ih =>
    obtain ⟨s,hs,hv,hr,h0⟩ := ih (Nat.le_of_succ_le hn)
    obtain ⟨t,u,ht,hu,hd,hu0⟩ := increment s hr h0
    refine ⟨u, (hs.step ⟨_, trivial, ht⟩).step ⟨_, trivial, hu⟩, ?_, ?_, hu0⟩
    · rw [hd, store_value (by omega) (by omega), hv]
      omega
    · rw [hd]
      exact hr

/-- The 65539th increment of 32767 takes the value below zero. -/
theorem value_overflows : ∃ s, semMachine.system.Reachable s ∧ ¬ Exact s := by
  obtain ⟨s,hs,hv,hr,h0⟩ := incremented_reachable 65538 (Nat.le_refl _)
  obtain ⟨t,u,ht,hu,hd,-⟩ := increment s hr h0
  refine ⟨u, (hs.step ⟨_, trivial, ht⟩).step ⟨_, trivial, hu⟩, fun h => ?_⟩
  have hneg : u.data.value < 0 := by
    rw [hd, hv]
    change (32767*(65538 : Nat)+32767 : Int).bmod 4294967296 < 0
    decide
  exact absurd h.2 (by omega)

end NetKernel.SemaphoreValues
