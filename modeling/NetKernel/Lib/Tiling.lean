import Mathlib.Data.List.Basic

/-! Lists of spans that tile an interval of the natural numbers without gap or
overlap. -/
namespace NetKernel.Tiling
variable {β : Type*} (start size : β → Nat)

def Tiles : Nat → List β → Nat → Prop
  | lo, [], hi => lo = hi
  | lo, x :: xs, hi => start x = lo ∧ Tiles (lo+size x) xs hi

variable {start size} {lo hi : Nat} {l r m : List β} {x y : β}

theorem tiles_append : Tiles start size lo (l ++ r) hi ↔
    ∃ mid, Tiles start size lo l mid ∧ Tiles start size mid r hi := by
  induction l generalizing lo with
  | nil =>
    constructor
    · exact fun h => ⟨lo, rfl, h⟩
    · rintro ⟨mid,rfl,h⟩
      exact h
  | cons x xs ih =>
    simp only [List.cons_append, Tiles, ih]
    constructor
    · rintro ⟨hx,mid,hl,hr⟩
      exact ⟨mid, ⟨hx, hl⟩, hr⟩
    · rintro ⟨mid,⟨hx,hl⟩,hr⟩
      exact ⟨hx, mid, hl, hr⟩

theorem Tiles.le (h : Tiles start size lo l hi) : lo ≤ hi := by
  induction l generalizing lo with
  | nil => exact Nat.le_of_eq h
  | cons x xs ih => exact Nat.le_trans (Nat.le_add_right _ _) (ih h.2)

theorem Tiles.unique {hi' : Nat} (h : Tiles start size lo l hi)
    (h' : Tiles start size lo l hi') : hi' = hi := by
  induction l generalizing lo with
  | nil => exact h'.symm.trans h
  | cons x xs ih => exact ih h.2 h'.2

theorem Tiles.bounds (h : Tiles start size lo l hi) (hx : x ∈ l) :
    lo ≤ start x ∧ start x+size x ≤ hi := by
  induction l generalizing lo with
  | nil => cases hx
  | cons y ys ih =>
    obtain ⟨hs,ht⟩ := h
    cases List.mem_cons.mp hx with
    | inl he =>
      subst he
      have := ht.le
      omega
    | inr hm =>
      have := ih ht hm
      omega

/-- Spans of the list before `x` end where `x` starts, later ones start where it ends. -/
theorem Tiles.order (h : Tiles start size lo (l ++ x :: r) hi) :
    (∀ y ∈ l, start y+size y ≤ start x) ∧ ∀ z ∈ r, start x+size x ≤ start z := by
  obtain ⟨mid,hl,hx,hr⟩ := tiles_append.mp h
  refine ⟨fun y hy => ?_, fun z hz => ?_⟩
  · rw [hx]
    exact (hl.bounds hy).2
  · rw [hx]
    exact (hr.bounds hz).1

theorem Tiles.adjacent (h : Tiles start size lo (l ++ x :: y :: r) hi) :
    start y = start x+size x := by
  obtain ⟨mid,-,hx,hy,-⟩ := tiles_append.mp h
  rw [hy, hx]

theorem Tiles.replace (h : Tiles start size lo (l ++ (m ++ r)) hi) (m' : List β)
    (hm : ∀ a b, Tiles start size a m b → Tiles start size a m' b) :
    Tiles start size lo (l ++ (m' ++ r)) hi := by
  obtain ⟨a,hl,h⟩ := tiles_append.mp h
  obtain ⟨b,h,hr⟩ := tiles_append.mp h
  exact tiles_append.mpr ⟨a, hl, tiles_append.mpr ⟨b, hm a b h, hr⟩⟩

theorem Tiles.apart (h : Tiles start size lo l hi) (hx : x ∈ l) (hy : y ∈ l) (hne : x ≠ y) :
    start x+size x ≤ start y ∨ start y+size y ≤ start x := by
  obtain ⟨a,b,rfl⟩ := List.append_of_mem hx
  obtain ⟨hb,ha⟩ := h.order
  rcases List.mem_append.mp hy with hy | hy
  · exact Or.inr (hb y hy)
  · cases List.mem_cons.mp hy with
    | inl he => exact absurd he.symm hne
    | inr hm => exact Or.inl (ha y hm)

theorem Tiles.pairwise (h : Tiles start size lo l hi) :
    l.Pairwise fun x y => start x+size x ≤ start y := by
  induction l generalizing lo with
  | nil => exact List.Pairwise.nil
  | cons x xs ih =>
    refine List.pairwise_cons.mpr ⟨fun y hy => ?_, ih h.2⟩
    rw [h.1]
    exact (h.2.bounds hy).1

theorem Tiles.dvd (h : Tiles start size lo l hi) {d : Nat} (hlo : d ∣ lo)
    (hs : ∀ x ∈ l, d ∣ size x) (hx : x ∈ l) : d ∣ start x := by
  induction l generalizing lo with
  | nil => cases hx
  | cons y ys ih =>
    obtain ⟨hy,ht⟩ := h
    cases List.mem_cons.mp hx with
    | inl he => rw [he, hy]; exact hlo
    | inr hm =>
      exact ih ht (Nat.dvd_add hlo (hs y List.mem_cons_self))
        (fun z hz => hs z (List.mem_cons_of_mem _ hz)) hm

end NetKernel.Tiling
