import Mathlib.Order.Lattice
import Mathlib.Data.List.Pairwise

/-! Sorted lists of half-open spans of a linear order, apart from each other and inside
an interval, with a payload. Spans may be empty in `Along`, not in `Laid`. -/
namespace NetKernel.Spans
variable {α β : Type*} [LinearOrder α] (start finish : β → α)

/-- The spans are in order, apart and between `lo` and `hi`. -/
def Along : α → List β → α → Prop
  | lo, [], hi => lo ≤ hi
  | lo, x :: xs, hi => lo ≤ start x ∧ start x ≤ finish x ∧ Along (finish x) xs hi

/-- The spans are not empty, in order, apart and between `lo` and `hi`. -/
def Laid : α → List β → α → Prop
  | lo, [], hi => lo ≤ hi
  | lo, x :: xs, hi => lo ≤ start x ∧ start x < finish x ∧ Laid (finish x) xs hi

def spanAt (l : List β) (a : α) : Option β :=
  l.find? fun x => decide (start x ≤ a ∧ a < finish x)

variable {start finish} {lo lo' hi a : α} {l : List β} {x : β}

theorem Along.le (h : Along start finish lo l hi) : lo ≤ hi := by
  induction l generalizing lo with
  | nil => exact h
  | cons x xs ih => exact (h.1.trans h.2.1).trans (ih h.2.2)

theorem Along.mono (h : Along start finish lo l hi) (hle : lo' ≤ lo) :
    Along start finish lo' l hi := by
  cases l with
  | nil => exact hle.trans h
  | cons x xs => exact ⟨hle.trans h.1, h.2⟩

theorem Along.bounds (h : Along start finish lo l hi) (hx : x ∈ l) :
    lo ≤ start x ∧ start x ≤ finish x ∧ finish x ≤ hi := by
  induction l generalizing lo with
  | nil => cases hx
  | cons y ys ih =>
    cases List.mem_cons.mp hx with
    | inl he =>
      subst he
      exact ⟨h.1, h.2.1, h.2.2.le⟩
    | inr hm => exact ih (h.2.2.mono (h.1.trans h.2.1)) hm

theorem Along.pairwise (h : Along start finish lo l hi) :
    l.Pairwise fun x y => finish x ≤ start y := by
  induction l generalizing lo with
  | nil => exact .nil
  | cons x xs ih => exact .cons (fun y hy => (h.2.2.bounds hy).1) (ih h.2.2)

theorem Along.append {mid : α} {r : List β} (h : Along start finish lo l mid)
    (hr : Along start finish mid r hi) : Along start finish lo (l ++ r) hi := by
  induction l generalizing lo with
  | nil => exact hr.mono h
  | cons x xs ih => exact ⟨h.1, h.2.1, ih h.2.2⟩

theorem laid_iff : Laid start finish lo l hi ↔
    Along start finish lo l hi ∧ ∀ x ∈ l, start x < finish x := by
  induction l generalizing lo with
  | nil => exact ⟨fun h => ⟨h, fun x hx => by cases hx⟩, And.left⟩
  | cons x xs ih =>
    simp only [Laid, Along, ih, List.forall_mem_cons]
    constructor
    · rintro ⟨hlo,hpos,hxs,hne⟩
      exact ⟨⟨hlo, hpos.le, hxs⟩, hpos, hne⟩
    · rintro ⟨⟨hlo,-,hxs⟩,hpos,hne⟩
      exact ⟨hlo, hpos, hxs, hne⟩

theorem Laid.along (h : Laid start finish lo l hi) : Along start finish lo l hi :=
  (laid_iff.mp h).1

theorem Laid.pos (h : Laid start finish lo l hi) (hx : x ∈ l) : start x < finish x :=
  (laid_iff.mp h).2 x hx

theorem spanAt_cons : spanAt start finish (x :: l) a =
    if start x ≤ a ∧ a < finish x then some x else spanAt start finish l a := by
  rw [spanAt, List.find?_cons]
  by_cases hx : start x ≤ a ∧ a < finish x
  · rw [if_pos hx, decide_eq_true hx]
  · rw [if_neg hx, decide_eq_false hx]
    rfl

end NetKernel.Spans
