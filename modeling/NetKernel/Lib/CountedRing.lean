import Mathlib.Data.List.DropRight

/-! Rings addressed by a start index and a count, and the queues they hold: the last
entries of a log, or the entries of a queue that drops its oldest one when full. -/
namespace NetKernel.CountedRing
variable {α : Type*}

/-- The `count` entries of `ring` from index `start` on. -/
def entries (ring : List α) (d : α) (start count : Nat) : List α :=
  (List.range count).map fun i => ring.getD ((start+i) % ring.length) d

variable {ring : List α} {d x : α} {start count : Nat}

@[simp] theorem length_entries : (entries ring d start count).length = count := by
  simp [entries]

@[simp] theorem entries_zero : entries ring d start 0 = [] := rfl

theorem entries_succ (ring : List α) (d : α) (start count : Nat) :
    entries ring d start (count+1) =
      ring.getD (start % ring.length) d :: entries ring d ((start+1) % ring.length) count := by
  rw [entries, List.range_succ_eq_map, List.map_cons, List.map_map, Nat.add_zero, entries]
  refine congrArg _ (List.map_congr_left fun i _ => ?_)
  simp only [Function.comp_apply, Nat.succ_eq_add_one, Nat.mod_add_mod]
  rw [show start+(i+1) = start+1+i by omega]

theorem entries_set {j : Nat} (hj : ∀ i < count, (start+i) % ring.length ≠ j) :
    entries (ring.set j x) d start count = entries ring d start count := by
  refine List.map_congr_left fun i hi => ?_
  rw [List.length_set, List.getD_eq_getElem?_getD, List.getD_eq_getElem?_getD,
    List.getElem?_set_ne (hj i (List.mem_range.mp hi)).symm]

theorem add_mod_ne {n i count : Nat} (start : Nat) (hi : i < count) (hc : count < n) :
    (start+i) % n ≠ (start+count) % n := by
  intro he
  have hdvd := Nat.dvd_of_mod_eq_zero (Nat.sub_mod_eq_zero_of_mod_eq he.symm)
  have := Nat.le_of_dvd (by omega) hdvd
  omega

theorem entries_push (ring : List α) (d x : α) (start count : Nat) (hc : count < ring.length) :
    entries (ring.set ((start+count) % ring.length) x) d start (count+1) =
      entries ring d start count ++ [x] := by
  have hlast : (ring.set ((start+count) % ring.length) x).getD ((start+count) % ring.length) d =
      x := by
    rw [List.getD_eq_getElem?_getD, List.getElem?_set_self (Nat.mod_lt _ (by omega)),
      Option.getD_some]
  rw [entries, List.range_succ, List.map_append, List.map_singleton, List.length_set, hlast]
  congr 1
  rw [← entries_set (x := x) (d := d) fun i hi => add_mod_ne start hi hc, entries, List.length_set]

/-- Appends to a queue of at most `n` entries, which drops its oldest when full. -/
def pushLast (n : Nat) (l : List α) (x : α) : List α := (l ++ [x]).rtake n

variable {n : Nat} {l : List α}

theorem pushLast_room (h : l.length < n) : pushLast n l x = l ++ [x] := by
  rw [pushLast, List.rtake, List.length_append, List.length_singleton,
    show l.length+1-n = 0 by omega, List.drop_zero]

theorem pushLast_full {a : α} (h : (a :: l).length = n) : pushLast n (a :: l) x = l ++ [x] := by
  rw [pushLast, List.rtake, List.length_append, List.length_singleton, h,
    Nat.add_sub_cancel_left, List.cons_append, List.drop_one, List.tail_cons]

theorem rtake_append_singleton (n : Nat) (l : List α) (x : α) :
    (l ++ [x]).rtake n = pushLast n (l.rtake n) x := by
  cases n with
  | zero => rw [pushLast, List.rtake_zero, List.rtake_zero]
  | succ m =>
    rw [pushLast, List.rtake_concat_succ, List.rtake_concat_succ]
    congr 1
    simp only [List.rtake, List.drop_drop, List.length_drop]
    congr 1
    omega

theorem sublist_pushLast (n : Nat) (l : List α) (x : α) : (pushLast n l x).Sublist (l ++ [x]) :=
  List.drop_sublist _ _

theorem entries_overwrite (ring : List α) (d x : α) (start : Nat) (hn : 0 < ring.length) :
    entries (ring.set (start % ring.length) x) d ((start+1) % ring.length) ring.length =
      pushLast ring.length (entries ring d start ring.length) x := by
  obtain ⟨m,hm⟩ := Nat.exists_eq_add_of_lt hn
  rw [Nat.zero_add] at hm
  have hcell : start % ring.length = ((start+1) % ring.length+m) % ring.length := by
    rw [Nat.mod_add_mod, show start+1+m = start+ring.length by omega, Nat.add_mod_right]
  have hold : entries ring d start ring.length = ring.getD (start % ring.length) d ::
      entries ring d ((start+1) % ring.length) m := by
    have := entries_succ ring d start m
    rwa [← hm] at this
  have hnew := entries_push ring d x ((start+1) % ring.length) m (by omega)
  rw [← hm] at hnew
  rw [hold, pushLast_full (by rw [List.length_cons, length_entries, hm]), hcell, hnew]

end NetKernel.CountedRing
