import Mathlib.Data.List.Induction
import Mathlib.Data.Set.Lattice
import Mathlib.Order.CompletePartialOrder

/-! Layers painted one after the other. A layer covers a set of places, has a colour for
those of its own, and blanks the other places that it covers. -/
namespace NetKernel.Layers
open Classical

variable {ι α β : Type*} (cover own : ι → Set α) (color : ι → α → β) (blank : β)

noncomputable def paint (picture : α → Option β) (i : ι) : α → Option β := fun a =>
  if a ∈ own i then some (color i a) else if a ∈ cover i then some blank else picture a

/-- A place of a layer's own that a later one covers is blank anyhow. -/
def Hides (i j : ι) : Prop := ∀ a ∈ own i, a ∈ cover j → color i a = blank

variable {cover own color blank} {picture picture' : α → Option β} {l : List ι} {i : ι} {a : α}

theorem foldl_paint_congr (h : picture a = picture' a) :
    l.foldl (paint cover own color blank) picture a =
      l.foldl (paint cover own color blank) picture' a := by
  induction l generalizing picture picture' with
  | nil => exact h
  | cons j l ih =>
    refine ih ?_
    simp only [paint]
    split
    · rfl
    · split
      · rfl
      · exact h

theorem color_or_blank (hl : l.Pairwise fun i j => Disjoint (own i) (own j)) (hi : i ∈ l)
    (ha : a ∈ own i) : l.foldl (paint cover own color blank) picture a = some (color i a) ∨
      l.foldl (paint cover own color blank) picture a = some blank := by
  induction l using List.reverseRecOn with
  | nil => cases hi
  | append_singleton l j ih =>
    obtain ⟨hl,-,hj⟩ := List.pairwise_append.mp hl
    rw [List.foldl_append, List.foldl_cons, List.foldl_nil, paint]
    obtain hi | hi := List.mem_append.mp hi
    · have hnot : a ∉ own j := Set.disjoint_left.mp (hj i hi j (List.mem_singleton.mpr rfl)) ha
      rw [if_neg hnot]
      split
      · exact Or.inr rfl
      · exact ih hl hi
    · rw [List.mem_singleton.mp hi] at ha ⊢
      rw [if_pos ha]
      exact Or.inl rfl

/-- All the places of all layers have their colours in the end exactly when no layer hides a
colour of one before it. -/
theorem painted_iff (hl : l.Pairwise fun i j => Disjoint (own i) (own j)) :
    (∀ i ∈ l, ∀ a ∈ own i, l.foldl (paint cover own color blank) picture a = some (color i a)) ↔
      l.Pairwise (Hides cover own color blank) := by
  induction l using List.reverseRecOn with
  | nil => simp
  | append_singleton l j ih =>
    obtain ⟨hl,-,hj⟩ := List.pairwise_append.mp hl
    have hnot (i : ι) (hi : i ∈ l) (a : α) (ha : a ∈ own i) : a ∉ own j :=
      Set.disjoint_left.mp (hj i hi j (List.mem_singleton.mpr rfl)) ha
    have hlast (i : ι) (hi : i ∈ l) (a : α) (ha : a ∈ own i) :
        (l ++ [j]).foldl (paint cover own color blank) picture a =
          if a ∈ cover j then some blank else l.foldl (paint cover own color blank) picture a := by
      rw [List.foldl_append, List.foldl_cons, List.foldl_nil, paint, if_neg (hnot i hi a ha)]
    have hown (a : α) (ha : a ∈ own j) :
        (l ++ [j]).foldl (paint cover own color blank) picture a = some (color j a) := by
      rw [List.foldl_append, List.foldl_cons, List.foldl_nil, paint, if_pos ha]
    rw [List.pairwise_append, ← ih hl]
    constructor
    · intro h
      have hhides (i : ι) (hi : i ∈ l) : Hides cover own color blank i j := fun a ha hc => by
        have hcolor := h i (List.mem_append_left _ hi) a ha
        rw [hlast i hi a ha, if_pos hc] at hcolor
        exact (Option.some.inj hcolor).symm
      refine ⟨fun i hi a ha => ?_, List.pairwise_singleton _ j, fun i hi k hk => ?_⟩
      · have hcolor := h i (List.mem_append_left _ hi) a ha
        rw [hlast i hi a ha] at hcolor
        by_cases hc : a ∈ cover j
        · have hcases : l.foldl (paint cover own color blank) picture a = some (color i a) ∨
              l.foldl (paint cover own color blank) picture a = some blank :=
            color_or_blank hl hi ha
          obtain hold | hold := hcases
          · exact hold
          · rw [hold, hhides i hi a ha hc]
        · rwa [if_neg hc] at hcolor
      · rw [List.mem_singleton.mp hk]
        exact hhides i hi
    · rintro ⟨h,-,hhides⟩ i hi a ha
      obtain hi | hi := List.mem_append.mp hi
      · rw [hlast i hi a ha]
        split
        · rename_i hc
          rw [hhides i hi j (List.mem_singleton.mpr rfl) a ha hc]
        · exact h i hi a ha
      · rw [List.mem_singleton.mp hi] at ha ⊢
        exact hown a ha

end NetKernel.Layers
