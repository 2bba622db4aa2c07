import Mathlib.Data.List.Basic
import Mathlib.Logic.Function.Basic

/-! Rings of `n` cells addressed by free-running indices modulo `w`. The entries
between two indices form a queue; one side moves the low index, the other fills
the cell at the high index and then moves it. -/
namespace NetKernel.IndexRing
variable {α β : Type*}

/-- The index after `i`. -/
def bump (w i : Nat) : Nat := (i+1) % w

/-- How far index `hi` has run ahead of index `lo`. -/
def ahead (w lo hi : Nat) : Nat := (hi+(w-lo)) % w

/-- The entries of the ring from index `lo` up to index `hi`. -/
def window (n w : Nat) (ring : Nat → α) (lo hi : Nat) : List α :=
  (List.range (ahead w lo hi)).map fun i => ring ((lo+i) % n)

variable {n w lo hi : Nat} {ring ring' : Nat → α}

theorem bump_lt (hw : 0 < w) (i : Nat) : bump w i < w := Nat.mod_lt _ hw

theorem bump_of_lt (h : lo+1 < w) : bump w lo = lo+1 := Nat.mod_eq_of_lt h

theorem bump_last (h : lo+1 = w) : bump w lo = 0 := by rw [bump, h, Nat.mod_self]

theorem ahead_of_le (h : lo ≤ hi) (hh : hi < w) : ahead w lo hi = hi-lo := by
  rw [ahead, show hi+(w-lo) = hi-lo+w by omega, Nat.add_mod_right, Nat.mod_eq_of_lt (by omega)]

theorem ahead_of_lt (h : hi < lo) (hl : lo < w) : ahead w lo hi = hi+(w-lo) :=
  Nat.mod_eq_of_lt (by omega)

@[simp] theorem ahead_self (hl : lo < w) : ahead w lo lo = 0 := by
  rw [ahead_of_le (Nat.le_refl _) hl, Nat.sub_self]

theorem ahead_eq_zero (hl : lo < w) (hh : hi < w) : ahead w lo hi = 0 ↔ lo = hi := by
  constructor
  · intro h
    by_cases hle : lo ≤ hi
    · rw [ahead_of_le hle hh] at h
      omega
    · rw [ahead_of_lt (by omega) hl] at h
      omega
  · rintro rfl
    exact ahead_self hl

theorem ahead_bump_lo (hl : lo < w) (hh : hi < w) (hne : lo ≠ hi) :
    ahead w lo hi = ahead w (bump w lo) hi+1 := by
  by_cases hlast : lo+1 = w
  · rw [bump_last hlast, ahead_of_lt (by omega) hl, ahead_of_le (Nat.zero_le _) hh]
    omega
  rw [bump_of_lt (by omega)]
  by_cases hle : lo ≤ hi
  · rw [ahead_of_le hle hh, ahead_of_le (by omega) hh]
    omega
  · rw [ahead_of_lt (by omega) hl, ahead_of_lt (by omega) (by omega)]
    omega

theorem ahead_bump_hi (hl : lo < w) (hh : hi < w) (hroom : ahead w lo hi+1 < w) :
    ahead w lo (bump w hi) = ahead w lo hi+1 := by
  by_cases hle : lo ≤ hi
  · rw [ahead_of_le hle hh] at hroom ⊢
    by_cases hlast : hi+1 = w
    · rw [bump_last hlast, ahead_of_lt (by omega) hl]
      omega
    · rw [bump_of_lt (by omega), ahead_of_le (by omega) (by omega)]
      omega
  · have hlt : hi < lo := by omega
    rw [ahead_of_lt hlt hl] at hroom ⊢
    rw [bump_of_lt (by omega), ahead_of_lt (by omega) hl]
    omega

theorem mod_add_ahead (hn : n ∣ w) (hl : lo < w) (hh : hi < w) :
    (lo+ahead w lo hi) % n = hi % n := by
  by_cases hle : lo ≤ hi
  · rw [ahead_of_le hle hh, Nat.add_sub_cancel' hle]
  · obtain ⟨k,rfl⟩ := hn
    rw [ahead_of_lt (by omega) hl, show lo+(hi+(n*k-lo)) = hi+n*k by omega,
      Nat.add_mul_mod_self_left]

@[simp] theorem length_window : (window n w ring lo hi).length = ahead w lo hi := by
  simp [window]

theorem window_eq_nil (hl : lo < w) (hh : hi < w) : window n w ring lo hi = [] ↔ lo = hi := by
  rw [← List.length_eq_zero_iff, length_window, ahead_eq_zero hl hh]

@[simp] theorem window_self (hl : lo < w) : window n w ring lo lo = [] :=
  (window_eq_nil hl hl).mpr rfl

theorem mod_bump_add (hn : n ∣ w) (hl : lo < w) (i : Nat) :
    (bump w lo+i) % n = (lo+(i+1)) % n := by
  by_cases hlast : lo+1 = w
  · obtain ⟨k,hk⟩ := hn
    rw [bump_last hlast, show lo+(i+1) = i+n*k by omega, Nat.add_mul_mod_self_left, Nat.zero_add]
  · rw [bump_of_lt (by omega), Nat.add_assoc, Nat.add_comm 1 i]

theorem window_pop (hn : n ∣ w) (hl : lo < w) (hh : hi < w) (hne : lo ≠ hi) :
    window n w ring lo hi = ring (lo % n) :: window n w ring (bump w lo) hi := by
  rw [window, ahead_bump_lo hl hh hne, List.range_succ_eq_map, List.map_cons, List.map_map,
    Nat.add_zero, window]
  refine congrArg _ (List.map_congr_left fun i _ => ?_)
  exact congrArg ring (mod_bump_add hn hl i).symm

theorem window_push (hn : n ∣ w) (hl : lo < w) (hh : hi < w) (hroom : ahead w lo hi+1 < w) :
    window n w ring lo (bump w hi) = window n w ring lo hi ++ [ring (hi % n)] := by
  rw [window, ahead_bump_hi hl hh hroom, List.range_succ, List.map_append, List.map_singleton,
    mod_add_ahead hn hl hh, window]

theorem cell_ne {i : Nat} (hn : n ∣ w) (hl : lo < w) (hh : hi < w) (hroom : ahead w lo hi < n)
    (hi' : i < ahead w lo hi) : (lo+i) % n ≠ hi % n := by
  intro he
  rw [← mod_add_ahead hn hl hh] at he
  have hdvd := Nat.dvd_of_mod_eq_zero (Nat.sub_mod_eq_zero_of_mod_eq he.symm)
  have := Nat.le_of_dvd (by omega) hdvd
  omega

theorem window_update (hn : n ∣ w) (hl : lo < w) (hh : hi < w) (hroom : ahead w lo hi < n)
    (x : α) : window n w (Function.update ring (hi % n) x) lo hi = window n w ring lo hi :=
  List.map_congr_left fun _ hi' => Function.update_of_ne
    (cell_ne hn hl hh hroom (List.mem_range.mp hi')) _ _

theorem window_write (hn : n ∣ w) (hl : lo < w) (hh : hi < w) (hroom : ahead w lo hi < n)
    (hnw : n < w) (x : α) :
    window n w (Function.update ring (hi % n) x) lo (bump w hi) = window n w ring lo hi ++ [x] := by
  rw [window_push hn hl hh (by omega), window_update hn hl hh hroom, Function.update_self]

theorem mem_window {x : α} : x ∈ window n w ring lo hi ↔
    ∃ i < ahead w lo hi, ring ((lo+i) % n) = x := by
  simp [window]

end NetKernel.IndexRing
