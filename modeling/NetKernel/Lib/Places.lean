import Mathlib.Data.List.Nodup
import Mathlib.Logic.Function.Basic

/-! Things spread over places, each live thing in exactly one: what holds a list of things,
and how things move, come and go. -/
namespace NetKernel.Places
open Function
variable {P τ : Type*}

/-- The live things are the ones in some place; none is in two, or twice in one. -/
structure Partition (content : P → List τ) (live : τ → Prop) : Prop where
  nodup : ∀ p, (content p).Nodup
  unique : ∀ i p q, i ∈ content p → i ∈ content q → p = q
  live : ∀ i, live i ↔ ∃ p, i ∈ content p

variable {content : P → List τ} {live : τ → Prop} {i : τ} {p q : P} {l rest : List τ}

theorem Partition.existsUnique (h : Partition content live) (hi : live i) :
    ∃! p, i ∈ content p := by
  obtain ⟨p,hp⟩ := (h.live i).mp hi
  exact ⟨p, hp, fun q hq => h.unique i q p hq hp⟩

theorem Partition.congr {live' : τ → Prop} (h : Partition content live)
    (hl : ∀ i, live' i ↔ live i) : Partition content live' :=
  ⟨h.nodup, h.unique, fun i => (hl i).trans (h.live i)⟩

theorem Partition.perm {content' : P → List τ} (h : Partition content live)
    (hp : ∀ p, (content' p).Perm (content p)) : Partition content' live := by
  refine ⟨fun p => (hp p).nodup_iff.mpr (h.nodup p), fun i p q hi hj => ?_, fun i => ?_⟩
  · exact h.unique i p q ((hp p).mem_iff.mp hi) ((hp q).mem_iff.mp hj)
  · exact (h.live i).trans (exists_congr fun p => (hp p).mem_iff.symm)

variable [DecidableEq P]

/-- The front of one place goes to the end of another. -/
def move (content : P → List τ) (p q : P) (l rest : List τ) : P → List τ :=
  update (update content p rest) q (update content p rest q ++ l)

theorem mem_move (h : Partition content live) (hp : content p = l ++ rest) (r : P) :
    i ∈ move content p q l rest r ↔ i ∈ l ∧ r = q ∨ i ∉ l ∧ i ∈ content r := by
  have hn := h.nodup p
  rw [hp] at hn
  have hapart : i ∈ l → i ∉ rest := fun hl hr => (List.nodup_append.mp hn).2.2 i hl i hr rfl
  have hrest (r : P) : i ∈ update content p rest r ↔ i ∉ l ∧ i ∈ content r := by
    by_cases hr : r = p
    · subst hr
      rw [update_self, hp, List.mem_append]
      tauto
    · rw [update_of_ne hr]
      refine ⟨fun hm => ⟨fun hl => hr ?_, hm⟩, fun hm => hm.2⟩
      exact h.unique i r p hm (hp ▸ List.mem_append_left _ hl)
  by_cases hr : r = q
  · subst hr
    rw [move, update_self, List.mem_append, hrest]
    tauto
  · rw [move, update_of_ne hr, hrest]
    tauto

theorem Partition.move (h : Partition content live) (hp : content p = l ++ rest) :
    Partition (Places.move content p q l rest) live := by
  have hmem {i : τ} {r : P} := mem_move (i := i) (q := q) h hp r
  refine ⟨fun r => ?_, fun i r r' hr hr' => ?_, fun i => ?_⟩
  · have hn := h.nodup p
    rw [hp] at hn
    have hrest (r : P) : (update content p rest r).Nodup := by
      by_cases hr : r = p
      · subst hr
        rw [update_self]
        exact (List.nodup_append.mp hn).2.1
      · rw [update_of_ne hr]
        exact h.nodup r
    by_cases hr : r = q
    · subst hr
      rw [Places.move, update_self]
      refine List.nodup_append.mpr ⟨hrest r, (List.nodup_append.mp hn).1, ?_⟩
      rintro a ha b hb rfl
      by_cases hr : r = p
      · subst hr
        rw [update_self] at ha
        exact (List.nodup_append.mp hn).2.2 a hb a ha rfl
      · rw [update_of_ne hr] at ha
        exact hr (h.unique a r p ha (hp ▸ List.mem_append_left _ hb))
    · rw [Places.move, update_of_ne hr]
      exact hrest r
  · rw [hmem] at hr hr'
    obtain ⟨hl,rfl⟩ | ⟨hl,hr⟩ := hr
    · obtain ⟨-,rfl⟩ | ⟨hl',-⟩ := hr'
      · rfl
      · exact absurd hl hl'
    · obtain ⟨hl',-⟩ | ⟨-,hr'⟩ := hr'
      · exact absurd hl' hl
      · exact h.unique i r r' hr hr'
  · rw [h.live]
    constructor
    · rintro ⟨r,hr⟩
      by_cases hl : i ∈ l
      · exact ⟨q, hmem.mpr (Or.inl ⟨hl, rfl⟩)⟩
      · exact ⟨r, hmem.mpr (Or.inr ⟨hl, hr⟩)⟩
    · rintro ⟨r,hr⟩
      obtain ⟨hl,-⟩ | ⟨-,hr⟩ := hmem.mp hr
      · exact ⟨p, hp ▸ List.mem_append_left _ hl⟩
      · exact ⟨r, hr⟩

theorem Partition.moved {content' : P → List τ} (h : Partition content live) (hpq : p ≠ q)
    (hp : content p = l ++ rest) (hp' : content' p = rest) (hq' : content' q = content q ++ l)
    (hother : ∀ r, r ≠ p → r ≠ q → content' r = content r) : Partition content' live := by
  have heq : content' = Places.move content p q l rest := by
    funext r
    by_cases hr : r = q
    · subst hr
      rw [Places.move, update_self, update_of_ne hpq.symm, hq']
    · rw [Places.move, update_of_ne hr]
      by_cases hrp : r = p
      · rw [hrp, update_self, hp']
      · rw [update_of_ne hrp, hother r hrp hr]
  exact heq ▸ h.move hp

theorem Partition.add (h : Partition content live) (hi : ¬live i) :
    Partition (update content q (content q ++ [i])) fun j => live j ∨ j = i := by
  have hnot (r : P) : i ∉ content r := fun hr => hi ((h.live i).mpr ⟨r, hr⟩)
  have hmem {j : τ} {r : P} : j ∈ update content q (content q ++ [i]) r ↔
      j ∈ content r ∨ j = i ∧ r = q := by
    by_cases hr : r = q
    · subst hr
      simp
    · simp [hr]
  refine ⟨fun r => ?_, fun j r r' hr hr' => ?_, fun j => ?_⟩
  · by_cases hr : r = q
    · subst hr
      rw [update_self]
      refine List.nodup_append.mpr ⟨h.nodup r, List.nodup_singleton i, ?_⟩
      rintro a ha b hb rfl
      exact hnot r (List.mem_singleton.mp hb ▸ ha)
    · rw [update_of_ne hr]
      exact h.nodup r
  · rw [hmem] at hr hr'
    obtain hr | ⟨rfl,rfl⟩ := hr
    · obtain hr' | ⟨rfl,-⟩ := hr'
      · exact h.unique j r r' hr hr'
      · exact absurd hr (hnot r)
    · obtain hr' | ⟨-,rfl⟩ := hr'
      · exact absurd hr' (hnot r')
      · rfl
  · simp only [hmem, h.live]
    constructor
    · rintro (⟨r,hr⟩ | rfl)
      · exact ⟨r, Or.inl hr⟩
      · exact ⟨q, Or.inr ⟨rfl, rfl⟩⟩
    · rintro ⟨r,hr | ⟨rfl,-⟩⟩
      · exact Or.inl ⟨r, hr⟩
      · exact Or.inr rfl

theorem Partition.remove (h : Partition content live) (hp : content p = i :: rest) :
    Partition (update content p rest) fun j => live j ∧ j ≠ i := by
  have hn := h.nodup p
  rw [hp] at hn
  obtain ⟨hnot,hrest⟩ := List.nodup_cons.mp hn
  have hmem {j : τ} {r : P} : j ∈ update content p rest r ↔ j ≠ i ∧ j ∈ content r := by
    by_cases hr : r = p
    · subst hr
      rw [update_self, hp, List.mem_cons]
      constructor
      · intro hj
        exact ⟨fun he => hnot (he ▸ hj), Or.inr hj⟩
      · rintro ⟨hne,hj⟩
        exact hj.resolve_left hne
    · rw [update_of_ne hr]
      refine ⟨fun hj => ⟨fun he => hr ?_, hj⟩, fun hj => hj.2⟩
      exact h.unique i r p (he ▸ hj) (hp ▸ List.mem_cons_self)
  refine ⟨fun r => ?_, fun j r r' hr hr' => ?_, fun j => ?_⟩
  · by_cases hr : r = p
    · subst hr
      rw [update_self]
      exact hrest
    · rw [update_of_ne hr]
      exact h.nodup r
  · exact h.unique j r r' (hmem.mp hr).2 (hmem.mp hr').2
  · rw [h.live]
    constructor
    · rintro ⟨⟨r,hr⟩,hne⟩
      exact ⟨r, hmem.mpr ⟨hne, hr⟩⟩
    · rintro ⟨r,hr⟩
      exact ⟨⟨r, (hmem.mp hr).2⟩, (hmem.mp hr).1⟩

end NetKernel.Places
