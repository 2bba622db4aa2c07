import Mathlib.Data.List.Basic

/-! Flat memory: runs of cells loaded and stored at an address, and runs fetched from
cells that may be missing. -/
namespace NetKernel.FlatMemory
variable {α : Type*}

def load (m : Nat → α) (a n : Nat) : List α := (List.range n).map fun i => m (a+i)

def store (m : Nat → α) (a : Nat) (xs : List α) : Nat → α :=
  fun x => if a ≤ x then xs[x-a]?.getD (m x) else m x

variable {m m' : Nat → α} {a b n k : Nat} {xs : List α}

@[simp] theorem length_load : (load m a n).length = n := by simp [load]

theorem load_congr (h : ∀ i < n, m (a+i) = m' (a+i)) : load m a n = load m' a n :=
  List.map_congr_left fun i hi => h i (List.mem_range.mp hi)

theorem load_add : load m a (n+k) = load m a n ++ load m (a+n) k := by
  rw [load, List.range_add, List.map_append, List.map_map]
  simp only [load, Function.comp_def, Nat.add_assoc]

theorem store_of_lt {x : Nat} (h : x < a) : store m a xs x = m x := if_neg (by omega)

theorem store_of_ge {x : Nat} (h : a+xs.length ≤ x) : store m a xs x = m x := by
  rw [store, if_pos (by omega), List.getElem?_eq_none (by omega), Option.getD_none]

theorem store_at (i : Nat) (h : i < xs.length) : store m a xs (a+i) = xs[i] := by
  rw [store, if_pos (by omega), Nat.add_sub_cancel_left, List.getElem?_eq_getElem h,
    Option.getD_some]

@[simp] theorem load_store : load (store m a xs) a xs.length = xs := by
  refine List.ext_getElem length_load fun i _ hi => ?_
  simp only [load, List.getElem_map, List.getElem_range]
  exact store_at i hi

theorem load_update {i : Nat} {x : α} :
    load (Function.update m (a+i) x) a n = (load m a n).set i x := by
  refine List.ext_getElem (by simp) fun j hj _ => ?_
  simp only [load, List.getElem_map, List.getElem_range, List.getElem_set]
  by_cases hij : i = j
  · rw [if_pos hij, hij, Function.update_self]
  · rw [if_neg hij, Function.update_of_ne (by omega)]

theorem load_store_apart (h : b+n ≤ a ∨ a+xs.length ≤ b) :
    load (store m a xs) b n = load m b n := by
  refine load_congr fun i hi => ?_
  cases h with
  | inl h => exact store_of_lt (by omega)
  | inr h => exact store_of_ge (by omega)

/-! Cells that may be missing. -/

/-- The run of `n` cells at `a`, if none is missing. -/
def fetch (f : Nat → Option α) : Nat → Nat → Option (List α)
  | _, 0 => some []
  | a, n+1 => (f a).bind fun x => (fetch f (a+1) n).map (x :: ·)

variable {f : Nat → Option α}

theorem fetch_eq_some : fetch f a n = some xs ↔ xs.length = n ∧ ∀ i < n, f (a+i) = xs[i]? := by
  induction n generalizing a xs with
  | zero =>
    rw [fetch, Option.some.injEq]
    constructor
    · rintro rfl
      exact ⟨rfl, fun i hi => absurd hi (Nat.not_lt_zero _)⟩
    · exact fun h => (List.length_eq_zero_iff.mp h.1).symm
  | succ n ih =>
    simp only [fetch, Option.bind_eq_some_iff, Option.map_eq_some_iff]
    constructor
    · rintro ⟨x,hx,ys,hys,rfl⟩
      obtain ⟨hlen,hcell⟩ := ih.mp hys
      refine ⟨by rw [List.length_cons, hlen], fun i hi => ?_⟩
      cases i with
      | zero => exact hx
      | succ i =>
        have hc := hcell i (Nat.lt_of_succ_lt_succ hi)
        rw [List.getElem?_cons_succ, ← hc, Nat.add_assoc, Nat.add_comm 1]
    · rintro ⟨hlen,hcell⟩
      cases xs with
      | nil => cases hlen
      | cons x ys =>
        refine ⟨x, hcell 0 (Nat.succ_pos _), ys, ih.mpr ⟨Nat.succ.inj hlen, fun i hi => ?_⟩, rfl⟩
        have hc := hcell (i+1) (Nat.succ_lt_succ hi)
        rw [List.getElem?_cons_succ] at hc
        rw [← hc, Nat.add_assoc, Nat.add_comm 1]

theorem fetch_eq_load : fetch f a n = some (load m a n) ↔ ∀ i < n, f (a+i) = some (m (a+i)) := by
  rw [fetch_eq_some]
  have hcell (i : Nat) (hi : i < n) : (load m a n)[i]? = some (m (a+i)) := by
    rw [load, List.getElem?_map, List.getElem?_range hi, Option.map_some]
  exact ⟨fun h i hi => (h.2 i hi).trans (hcell i hi),
    fun h => ⟨length_load, fun i hi => (h i hi).trans (hcell i hi).symm⟩⟩

theorem fetch_eq_none : fetch f a n = none ↔ ∃ i < n, f (a+i) = none := by
  induction n generalizing a with
  | zero =>
    rw [fetch]
    exact ⟨fun h => (Option.some_ne_none _ h).elim,
      fun ⟨_,hi,_⟩ => absurd hi (Nat.not_lt_zero _)⟩
  | succ n ih =>
    rw [fetch]
    cases hx : f a with
    | none => exact ⟨fun _ => ⟨0, Nat.succ_pos _, hx⟩, fun _ => rfl⟩
    | some x =>
      rw [Option.bind_some, Option.map_eq_none_iff, ih]
      constructor
      · rintro ⟨i,hi,h⟩
        exact ⟨i+1, Nat.succ_lt_succ hi, by rwa [Nat.add_comm i, ← Nat.add_assoc]⟩
      · rintro ⟨i,hi,h⟩
        cases i with
        | zero =>
          rw [Nat.add_zero, hx] at h
          cases h
        | succ i => exact ⟨i, Nat.lt_of_succ_lt_succ hi, by rwa [Nat.add_assoc, Nat.add_comm 1]⟩

theorem fetch_add : fetch f a (n+k) =
    (fetch f a n).bind fun xs => (fetch f (a+n) k).map (xs ++ ·) := by
  induction n generalizing a with
  | zero =>
    rw [Nat.zero_add, Nat.add_zero, fetch, Option.bind_some]
    exact Option.map_id'.symm
  | succ n ih =>
    rw [Nat.add_right_comm, fetch, fetch, ih]
    cases f a with
    | none => rfl
    | some x =>
      rw [Option.bind_some, Option.bind_some, Nat.add_assoc, Nat.add_comm 1]
      cases fetch f (a+1) n with
      | none => rfl
      | some ys =>
        simp only [Option.bind_some, Option.map_some, Option.map_map]
        rfl

end NetKernel.FlatMemory
