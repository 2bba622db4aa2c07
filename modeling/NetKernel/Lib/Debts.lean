import Mathlib.Data.Finsupp.Basic
import Mathlib.Data.Nat.ModEq

/-! A total that is paid in parts: what has been paid, and what finitely many debtors still
owe, modulo a word size. -/
namespace NetKernel.Debts
open Function
variable {ι : Type*} {m : Nat} {owes : ι → Nat} {paid paid' total total' : Nat}

/-- What is paid and what is owed make up the total. -/
def Balanced (m : Nat) (owes : ι → Nat) (paid total : Nat) : Prop :=
  ∃ owed : ι →₀ Nat, (∀ i, owed i = owes i) ∧ paid + owed.sum (fun _ x => x) ≡ total [MOD m]

theorem balanced_start (h : ∀ i, owes i = 0) (hpaid : paid ≡ total [MOD m]) :
    Balanced m owes paid total := by
  refine ⟨0, fun i => (h i).symm, ?_⟩
  rw [Finsupp.sum_zero_index]
  exact hpaid

theorem Balanced.update [DecidableEq ι] (h : Balanced m owes paid total) (i : ι) (x : Nat)
    (hpay : paid'+x+total ≡ paid+owes i+total' [MOD m]) :
    Balanced m (update owes i x) paid' total' := by
  obtain ⟨owed,howed,hsum⟩ := h
  refine ⟨owed.update i x, fun j => ?_, ?_⟩
  · rw [Finsupp.coe_update]
    by_cases hj : j = i
    · subst hj
      rw [update_self, update_self]
    · rw [update_of_ne hj, update_of_ne hj, howed]
  · have hupdate := Finsupp.sum_update_add owed i x (fun _ x => x) (fun _ => rfl) fun _ _ _ => rfl
    rw [howed] at hupdate
    generalize (owed.update i x).sum (fun _ x => x) = owed' at hupdate ⊢
    generalize owed.sum (fun _ x => x) = owed at hupdate hsum
    refine Nat.ModEq.add_right_cancel' (paid+owes i+total) ?_
    calc paid'+owed'+(paid+owes i+total)
        = (paid'+x+total)+(paid+owed) := by omega
      _ ≡ (paid+owes i+total')+total [MOD m] := hpay.add hsum
      _ = total'+(paid+owes i+total) := by omega

theorem Balanced.settled (h : Balanced m owes paid total) (h₀ : ∀ i, owes i = 0) :
    paid ≡ total [MOD m] := by
  obtain ⟨owed,howed,hsum⟩ := h
  obtain rfl : owed = 0 := Finsupp.ext fun i => (howed i).trans (h₀ i)
  rwa [Finsupp.sum_zero_index] at hsum

end NetKernel.Debts
