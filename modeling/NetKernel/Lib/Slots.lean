import Mathlib.Data.List.Perm.Subperm
import Mathlib.Data.List.Range
import Mathlib.Logic.Function.Basic

/-! `n` slots and a flag for each. The slots in circulation are listed without
repetition, and they are the slots whose flag is set. -/
namespace NetKernel.Slots
variable {n : Nat} {flag : Nat → Bool} {l r : List Nat} {x : Nat}

structure Circulation (n : Nat) (flag : Nat → Bool) (l : List Nat) : Prop where
  nodup : l.Nodup
  mem : ∀ k, k ∈ l ↔ k < n ∧ flag k = true

theorem Circulation.perm (h : Circulation n flag l) (hp : l.Perm r) : Circulation n flag r :=
  ⟨hp.nodup_iff.mp h.nodup, fun k => hp.mem_iff.symm.trans (h.mem k)⟩

theorem Circulation.perm_filter (h : Circulation n flag l) : l.Perm ((List.range n).filter flag) :=
  (List.perm_ext_iff_of_nodup h.nodup (List.nodup_range.filter _)).mpr fun k => by
    rw [h.mem, List.mem_filter, List.mem_range]

theorem Circulation.count (h : Circulation n flag l) : (List.range n).countP flag = l.length := by
  rw [List.countP_eq_length_filter, h.perm_filter.length_eq]

theorem Circulation.length_le (h : Circulation n flag l) : l.length ≤ n := by
  rw [← h.count]
  exact List.countP_le_length.trans_eq List.length_range

theorem Circulation.full (h : Circulation n flag l) (hl : n ≤ l.length) {k : Nat} (hk : k < n) :
    k ∈ l := by
  have hp := h.nodup.subperm fun x hx => List.mem_range.mpr ((h.mem x).mp hx).1
  have he := hp.perm_of_length_le (by simpa using hl)
  exact he.mem_iff.mpr (List.mem_range.mpr hk)

theorem Circulation.release (h : Circulation n flag (x :: l)) :
    Circulation n (Function.update flag x false) l := by
  obtain ⟨hx,hn⟩ := List.nodup_cons.mp h.nodup
  refine ⟨hn, fun k => ?_⟩
  by_cases hk : k = x
  · subst hk
    simp [hx]
  · rw [Function.update_of_ne hk, ← h.mem, List.mem_cons]
    simp [hk]

theorem Circulation.claim (h : Circulation n flag l) (hx : x < n) (hf : flag x = false) :
    Circulation n (Function.update flag x true) (x :: l) := by
  have hnot : x ∉ l := fun hm => by
    have := ((h.mem x).mp hm).2
    rw [hf] at this
    cases this
  refine ⟨List.nodup_cons.mpr ⟨hnot, h.nodup⟩, fun k => ?_⟩
  by_cases hk : k = x
  · subst hk
    simp [hx]
  · rw [Function.update_of_ne hk, ← h.mem, List.mem_cons]
    simp [hk]

theorem Circulation.congr {flag' : Nat → Bool} (h : Circulation n flag l)
    (hf : ∀ k < n, flag' k = flag k) : Circulation n flag' l := by
  refine ⟨h.nodup, fun k => ?_⟩
  rw [h.mem]
  exact and_congr_right fun hk => by rw [hf k hk]

theorem Circulation.grow (h : Circulation n flag l) :
    Circulation (n+1) (Function.update flag n false) l := by
  refine ⟨h.nodup, fun k => ?_⟩
  rw [h.mem]
  by_cases hk : k = n
  · subst hk
    simp
  · rw [Function.update_of_ne hk]
    exact and_congr_left fun _ => by omega

/-! A slot moves from one part of the list to the end of another. -/

theorem perm_to_second (x : Nat) (a b c : List Nat) :
    (x :: (a ++ (b ++ c))).Perm (a ++ ((b ++ [x]) ++ c)) := by
  rw [List.append_assoc b, List.singleton_append, ← List.append_assoc, ← List.append_assoc]
  exact List.perm_middle.symm

theorem perm_to_first (x : Nat) (a b : List Nat) : (x :: (a ++ b)).Perm ((a ++ [x]) ++ b) := by
  rw [List.append_assoc, List.singleton_append]
  exact List.perm_middle.symm

theorem perm_to_last {x : Nat} {b b' : List Nat} (a c : List Nat) (h : b.Perm (x :: b')) :
    (a ++ (b ++ c)).Perm (a ++ (b' ++ (c ++ [x]))) := by
  refine List.Perm.append_left a ((h.append_right c).trans ?_)
  rw [← List.append_assoc]
  exact (List.perm_append_singleton x _).symm

/-! What `n` slots list together. -/

theorem flatMap_split {β : Type*} (g : Nat → List β) {k : Nat} (hk : k < n) :
    ((List.range n).flatMap g).Perm (g k ++ ((List.range n).erase k).flatMap g) := by
  have hp := List.perm_cons_erase (List.mem_range.mpr hk)
  rw [← List.flatMap_cons]
  exact hp.flatMap_right g

theorem flatMap_erase_congr {β : Type*} {g g' : Nat → List β} {k : Nat}
    (h : ∀ i < n, i ≠ k → g' i = g i) :
    ((List.range n).erase k).flatMap g' = ((List.range n).erase k).flatMap g := by
  refine List.flatMap_congr fun i hi => ?_
  obtain ⟨hne,hlt⟩ := List.nodup_range.mem_erase_iff.mp hi
  exact h i (List.mem_range.mp hlt) hne

end NetKernel.Slots
