import Mathlib.Data.Set.Card
import Mathlib.Logic.Relation

/-! Walks along a partial function: where they come to, and that as many rounds as there
are places to come to visit them all, also on a cycle. -/
namespace NetKernel.Orbits
open Relation
variable {α : Type*} {f : α → Option α} {x y : α} {n : Nat}

/-- The places of the first `n` rounds. -/
def trail (f : α → Option α) : Nat → α → List α
  | 0, _ => []
  | n+1, x =>
    x :: match f x with
    | none => []
    | some y => trail f n y

def Reaches (f : α → Option α) : α → α → Prop := ReflTransGen fun x y => f x = some y

theorem trail_cons (h : f x = some y) : trail f (n+1) x = x :: trail f n y := by
  rw [trail, h]

theorem length_trail_le : (trail f n x).length ≤ n := by
  induction n generalizing x with
  | zero => exact Nat.le_refl 0
  | succ n ih =>
    refine Nat.succ_le_succ ?_
    cases f x with
    | none => exact Nat.zero_le n
    | some y => exact ih

theorem reaches_of_mem_trail (h : y ∈ trail f n x) : Reaches f x y := by
  induction n generalizing x with
  | zero => cases h
  | succ n ih =>
    obtain rfl | h := List.mem_cons.mp h
    · exact .refl
    · cases hx : f x with
      | none =>
        rw [hx] at h
        cases h
      | some z =>
        rw [hx] at h
        exact .head hx (ih h)

theorem pairwise_trail : (trail f n x).Pairwise (TransGen fun x y => f x = some y) := by
  induction n generalizing x with
  | zero => exact .nil
  | succ n ih =>
    cases hx : f x with
    | none =>
      rw [trail, hx]
      exact List.pairwise_singleton ..
    | some y =>
      rw [trail_cons hx]
      exact List.pairwise_cons.mpr ⟨fun z hz => .head' hx (reaches_of_mem_trail hz), ih⟩

theorem nodup_trail (h : ∀ z, Reaches f x z → ¬TransGen (fun x y => f x = some y) z z) :
    (trail f n x).Nodup := by
  refine pairwise_trail.imp_of_mem fun hy _ hyz heq => ?_
  subst heq
  exact h _ (reaches_of_mem_trail hy) hyz

/-- The place after `k` steps, none if the walk has ended. -/
def place (f : α → Option α) (x : α) : Nat → Option α
  | 0 => some x
  | k+1 => (place f x k).bind f

theorem reaches_place {k : Nat} (h : place f x k = some y) : Reaches f x y := by
  induction k generalizing y with
  | zero =>
    cases h
    exact .refl
  | succ k ih =>
    obtain ⟨z,hz,hy⟩ := Option.bind_eq_some_iff.mp h
    exact (ih hz).tail hy

theorem exists_place (h : Reaches f x y) : ∃ k, place f x k = some y := by
  induction h with
  | refl => exact ⟨0, rfl⟩
  | tail _ hyz ih =>
    obtain ⟨k,hk⟩ := ih
    exact ⟨k+1, by rw [place, hk]; exact hyz⟩

theorem place_add {k m : Nat} : place f x (k+m) = (place f x k).bind (place f · m) := by
  induction m with
  | zero => exact (Option.bind_fun_some _).symm
  | succ m ih =>
    rw [← Nat.add_assoc, place, ih, Option.bind_assoc]
    rfl

theorem mem_trail {k : Nat} (hk : k < n) (h : place f x k = some y) : y ∈ trail f n x := by
  induction n generalizing x k with
  | zero => omega
  | succ n ih =>
    cases k with
    | zero =>
      cases h
      exact List.mem_cons_self
    | succ k =>
      rw [Nat.add_comm, place_add] at h
      obtain ⟨z,hz,hy⟩ := Option.bind_eq_some_iff.mp h
      have hz : f x = some z := hz
      rw [trail_cons hz]
      exact List.mem_cons_of_mem _ (ih (by omega) hy)

theorem mem_trail_of_ncard {S : Set α} (hS : S.Finite) (hall : ∀ z, Reaches f x z → z ∈ S)
    (hn : S.ncard ≤ n) (h : Reaches f x y) : y ∈ trail f n x := by
  classical
  have hex := exists_place h
  obtain ⟨m,hm,hmin⟩ : ∃ m, place f x m = some y ∧ ∀ k < m, place f x k ≠ some y :=
    ⟨Nat.find hex, Nat.find_spec hex, fun _ => Nat.find_min hex⟩
  by_contra hy
  have hle : n ≤ m := Nat.le_of_not_lt fun hlt => hy (mem_trail hlt hm)
  have hplace (k : Nat) (hk : k ≤ m) :
      place f x k = some ((place f x k).getD y) ∧ (place f x k).getD y ∈ S := by
    obtain ⟨j,rfl⟩ := Nat.exists_eq_add_of_le hk
    rw [place_add] at hm
    obtain ⟨z,hz,-⟩ := Option.bind_eq_some_iff.mp hm
    rw [hz]
    exact ⟨rfl, hall z (reaches_place hz)⟩
  obtain ⟨i,hi,j,hj,hne,heq⟩ := Set.exists_ne_map_eq_of_ncard_lt_of_maps_to
    (s := (Finset.range (m+1) : Set Nat)) (t := S) (f := fun k => (place f x k).getD y)
    (by rw [Set.ncard_coe_finset, Finset.card_range]; omega)
    (fun k hk => (hplace k (Nat.le_of_lt_succ (Finset.mem_range.mp hk))).2) hS
  have hi := Nat.le_of_lt_succ (Finset.mem_range.mp hi)
  have hj := Nat.le_of_lt_succ (Finset.mem_range.mp hj)
  have hsame : place f x i = place f x j := by
    rw [(hplace i hi).1, (hplace j hj).1]
    exact congrArg some heq
  -- leaving out the loop between the two visits is a shorter way
  have hcut {a b : Nat} (hab : a < b) (hb : b ≤ m) (h : place f x a = place f x b) : False := by
    refine hmin (a+(m-b)) (by omega) ?_
    rw [place_add, h, ← place_add, Nat.add_sub_cancel' hb, hm]
  rcases Nat.lt_or_gt_of_ne hne with hlt | hlt
  · exact hcut hlt hj hsame
  · exact hcut hlt hi hsame.symm

end NetKernel.Orbits
