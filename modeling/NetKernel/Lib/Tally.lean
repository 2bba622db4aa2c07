import Mathlib.Data.Set.Card

/-! How many places of a finite family hold a value. -/
namespace NetKernel.Tally
variable {ι κ : Type*}

noncomputable def tally (f : ι → Option κ) (k : κ) : Nat := {i | f i = some k}.ncard

variable [Finite ι] {f : ι → Option κ} {k : κ}

theorem tally_pos : 0 < tally f k ↔ ∃ i, f i = some k := Set.ncard_pos (Set.toFinite _)

theorem tally_eq_zero : tally f k = 0 ↔ ∀ i, f i ≠ some k := by
  rw [← Nat.le_zero, ← Nat.not_lt, tally_pos, not_exists]

theorem tally_le : tally f k ≤ Nat.card ι := Set.ncard_le_card _

variable [DecidableEq ι] [DecidableEq κ]

theorem tally_split (f : ι → Option κ) (i : ι) (k : κ) :
    tally f k = {j | j ≠ i ∧ f j = some k}.ncard + if f i = some k then 1 else 0 := by
  by_cases hi : f i = some k
  · have hset : {j | f j = some k} = insert i {j | j ≠ i ∧ f j = some k} := by
      ext j
      rw [Set.mem_insert_iff]
      constructor
      · intro hj
        by_cases hji : j = i
        · exact Or.inl hji
        · exact Or.inr ⟨hji, hj⟩
      · rintro (rfl | hj)
        · exact hi
        · exact hj.2
    rw [if_pos hi, tally, hset, Set.ncard_insert_of_notMem (fun h => h.1 rfl) (Set.toFinite _)]
  · have hset : {j | f j = some k} = {j | j ≠ i ∧ f j = some k} := by
      ext j
      refine ⟨fun hj => ⟨?_, hj⟩, And.right⟩
      rintro rfl
      exact hi hj
    rw [if_neg hi, tally, hset, Nat.add_zero]

theorem tally_update (f : ι → Option κ) (i : ι) (y : Option κ) (k : κ) :
    tally (Function.update f i y) k + (if f i = some k then 1 else 0) =
      tally f k + if y = some k then 1 else 0 := by
  have hrest : {j | j ≠ i ∧ Function.update f i y j = some k} = {j | j ≠ i ∧ f j = some k} := by
    ext j
    refine and_congr_right fun hj => ?_
    rw [Function.update_of_ne hj]
  rw [tally_split f i k, tally_split (Function.update f i y) i k, hrest, Function.update_self]
  omega

end NetKernel.Tally
