import Mathlib.Logic.Function.Basic
import Mathlib.Logic.Function.Iterate

/-! Transition systems: reachable states, the invariant rule, and the runs whose
steps all meet a condition. -/
namespace NetKernel.Runs
variable {σ : Type*}

structure System (σ : Type*) where
  Init : σ → Prop
  Step : σ → σ → Prop

inductive System.Reachable (S : System σ) : σ → Prop
  | init {s : σ} : S.Init s → S.Reachable s
  | step {s t : σ} : S.Reachable s → S.Step s t → S.Reachable t

structure System.Invariant (S : System σ) (P : σ → Prop) : Prop where
  init : ∀ s, S.Init s → P s
  step : ∀ s t, P s → S.Step s t → P t

theorem System.Invariant.reachable {S : System σ} {P : σ → Prop} (h : S.Invariant P) {s : σ}
    (hr : S.Reachable s) : P s := by
  induction hr with
  | init hi => exact h.init _ hi
  | step _ hs ih => exact h.step _ _ ih hs

theorem System.reachable_iterate {S : System σ} {P : σ → Prop} {f : σ → σ}
    (hf : ∀ s, P s → S.Step s (f s)) {s : σ} (h : S.Reachable s) (n : Nat)
    (hp : ∀ i < n, P (f^[i] s)) : S.Reachable (f^[n] s) := by
  induction n with
  | zero => exact h
  | succ n ih =>
    have hn := ih fun i hi => hp i (by omega)
    rw [Function.iterate_succ_apply']
    exact hn.step (hf _ (hp n (by omega)))

/-- A machine whose steps are named by actions; `none` is an action that cannot happen. -/
structure Machine (σ α : Type*) where
  Init : σ → Prop
  step : σ → α → Option σ

variable {α : Type*}

/-- The runs of a machine whose actions all meet a condition on the state before. -/
def Machine.under (M : Machine σ α) (C : σ → α → Prop) : System σ where
  Init := M.Init
  Step s t := ∃ a, C s a ∧ M.step s a = some t

def Machine.system (M : Machine σ α) : System σ := M.under fun _ _ => True

/-- Performs the actions in order, passing over those that cannot happen. -/
def Machine.run (M : Machine σ α) (s : σ) : List α → σ
  | [] => s
  | a :: as => M.run ((M.step s a).getD s) as

/-- Every action of a run meets the condition where it happens. -/
def Machine.Allowed (M : Machine σ α) (C : σ → α → Prop) (s : σ) : List α → Prop
  | [] => True
  | a :: as => C s a ∧ M.Allowed C ((M.step s a).getD s) as

instance Machine.decidableAllowed {M : Machine σ α} {C : σ → α → Prop}
    [∀ s a, Decidable (C s a)] : ∀ s as, Decidable (M.Allowed C s as)
  | _, [] => inferInstanceAs (Decidable True)
  | s, a :: as =>
    have : Decidable (M.Allowed C ((M.step s a).getD s) as) := decidableAllowed _ as
    inferInstanceAs (Decidable (C s a ∧ M.Allowed C _ as))

theorem Machine.reachable_run {M : Machine σ α} {C : σ → α → Prop} {s : σ} {as : List α}
    (h : (M.under C).Reachable s) (hc : M.Allowed C s as) : (M.under C).Reachable (M.run s as) := by
  induction as generalizing s with
  | nil => exact h
  | cons a as ih =>
    refine ih ?_ hc.2
    cases hs : M.step s a with
    | none => exact h
    | some t => exact h.step ⟨a, hc.1, hs⟩

theorem Machine.allowed_append {M : Machine σ α} {C : σ → α → Prop} {s : σ} {as bs : List α} :
    M.Allowed C s (as ++ bs) ↔ M.Allowed C s as ∧ M.Allowed C (M.run s as) bs := by
  induction as generalizing s with
  | nil => exact (and_iff_right trivial).symm
  | cons a as ih => exact (and_congr_right fun _ => ih).trans and_assoc.symm

theorem Machine.allowed_true {M : Machine σ α} {s : σ} {as : List α} :
    M.Allowed (fun _ _ => True) s as := by
  induction as generalizing s with
  | nil => trivial
  | cons a as ih => exact ⟨trivial, ih⟩

end NetKernel.Runs
