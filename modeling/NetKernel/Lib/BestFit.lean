import Mathlib.Data.List.Basic

/-! Best-fit search through a list, given up at an exact fit or at the `n`-th fit. -/
namespace NetKernel.BestFit
variable {α : Type*} (size : α → Nat) (need : Nat)

def fits (x : α) : Bool := need ≤ size x

def scanned : Nat → List α → List α
  | _, [] => []
  | n, x :: xs =>
    if fits size need x then
      if n-1 = 0 ∨ size x = need then [x] else x :: scanned (n-1) xs
    else x :: scanned n xs

/-- The running best: a size and the element of that size. -/
def better (best : Nat × α) (x : α) : Nat × α :=
  if fits size need x ∧ size x < best.1 then (size x, x) else best

/-- The list ends where the search gives up. -/
def Stops (n : Nat) (l : List α) : Prop :=
  ∃ l' x, l = l' ++ [x] ∧ fits size need x = true ∧
    (size x = need ∨ (l' ++ [x]).countP (fits size need) = n)

variable {size need} {n : Nat} {x : α} {l : List α}

theorem scanned_initial (size : α → Nat) (need n : Nat) (l : List α) :
    scanned size need n l <+: l := by
  induction l generalizing n with
  | nil => exact List.prefix_refl []
  | cons x xs ih =>
    rw [scanned]
    split
    · split
      · exact ⟨xs, rfl⟩
      · exact List.cons_prefix_cons.mpr ⟨rfl, ih _⟩
    · exact List.cons_prefix_cons.mpr ⟨rfl, ih _⟩

theorem stops_cons_fit (hx : fits size need x = true) (h : Stops size need n l) :
    Stops size need (n+1) (x :: l) := by
  obtain ⟨l',y,rfl,hy,hend⟩ := h
  refine ⟨x :: l', y, rfl, hy, hend.imp id fun hc => ?_⟩
  rw [List.cons_append, List.countP_cons_of_pos hx, hc]

theorem stops_cons_other (hx : ¬ fits size need x = true) (h : Stops size need n l) :
    Stops size need n (x :: l) := by
  obtain ⟨l',y,rfl,hy,hend⟩ := h
  refine ⟨x :: l', y, rfl, hy, hend.imp id fun hc => ?_⟩
  rw [List.cons_append, List.countP_cons_of_neg hx, hc]

theorem scanned_stops (hn : 0 < n) (l : List α) :
    scanned size need n l = l ∨ Stops size need n (scanned size need n l) := by
  induction l generalizing n with
  | nil => exact Or.inl rfl
  | cons x xs ih =>
    rw [scanned]
    by_cases hx : fits size need x = true
    · rw [if_pos hx]
      by_cases hend : n-1 = 0 ∨ size x = need
      · rw [if_pos hend]
        refine Or.inr ⟨[], x, rfl, hx, hend.symm.imp id fun h1 => ?_⟩
        rw [List.nil_append, List.countP_cons_of_pos hx, List.countP_nil]
        omega
      · rw [if_neg hend]
        obtain ⟨hn1,-⟩ := not_or.mp hend
        cases ih (Nat.pos_of_ne_zero hn1) with
        | inl hall => exact Or.inl (by rw [hall])
        | inr hs =>
          have hstop := stops_cons_fit hx hs
          rw [Nat.sub_add_cancel hn] at hstop
          exact Or.inr hstop
    · rw [if_neg hx]
      exact (ih hn).imp (fun hall => by rw [hall]) (stops_cons_other hx)

theorem scanned_first (hn : 0 < n) {l' : List α} (hp : l' <+: scanned size need n l)
    (hs : Stops size need n l') : l' = scanned size need n l := by
  induction l generalizing n l' with
  | nil => exact List.prefix_nil.mp hp
  | cons x xs ih =>
    obtain ⟨l'',y,rfl,hy,hend⟩ := hs
    rw [scanned] at hp ⊢
    by_cases hx : fits size need x = true
    · rw [if_pos hx] at hp ⊢
      by_cases hstop : n-1 = 0 ∨ size x = need
      · rw [if_pos hstop] at hp ⊢
        have hlen := hp.length_le
        rw [List.length_append, List.length_singleton, List.length_singleton] at hlen
        exact hp.eq_of_length (by rw [List.length_append, List.length_singleton,
          List.length_singleton]; omega)
      · rw [if_neg hstop] at hp ⊢
        obtain ⟨hn1,hne⟩ := not_or.mp hstop
        cases l'' with
        | nil =>
          obtain ⟨rfl,-⟩ := List.cons_prefix_cons.mp hp
          rw [List.nil_append, List.countP_cons_of_pos hx, List.countP_nil] at hend
          omega
        | cons z l'' =>
          rw [List.cons_append] at hp
          obtain ⟨rfl,hp'⟩ := List.cons_prefix_cons.mp hp
          rw [List.cons_append, List.countP_cons_of_pos hx] at hend
          rw [List.cons_append, ih (Nat.pos_of_ne_zero hn1) hp'
            ⟨l'', y, rfl, hy, hend.imp id fun hc => by omega⟩]
    · rw [if_neg hx] at hp ⊢
      cases l'' with
      | nil =>
        obtain ⟨rfl,-⟩ := List.cons_prefix_cons.mp hp
        exact absurd hy hx
      | cons z l'' =>
        rw [List.cons_append] at hp
        obtain ⟨rfl,hp'⟩ := List.cons_prefix_cons.mp hp
        rw [List.cons_append, List.countP_cons_of_neg hx] at hend
        rw [List.cons_append, ih hn hp' ⟨l'', y, rfl, hy, hend⟩]

theorem scanned_none (hn : 0 < n) (h : ∀ x ∈ scanned size need n l, fits size need x = false) :
    ∀ x ∈ l, fits size need x = false := by
  cases scanned_stops hn l with
  | inl hall => rwa [hall] at h
  | inr hs =>
    obtain ⟨l',y,heq,hy,-⟩ := hs
    have := h y (heq ▸ List.mem_append_right _ List.mem_cons_self)
    rw [hy] at this
    cases this

/-- The running best over a list is as small as every fit in it, and is one of them
unless it is the one before. -/
theorem foldl_better (size : α → Nat) (need : Nat) (best : Nat × α) (l : List α) :
    let r := l.foldl (better size need) best
    (r = best ∨ ∃ x ∈ l, r = (size x, x) ∧ fits size need x = true) ∧ r.1 ≤ best.1 ∧
      ∀ y ∈ l, fits size need y = true → r.1 ≤ size y := by
  induction l generalizing best with
  | nil => exact ⟨Or.inl rfl, Nat.le_refl _, fun y hy => absurd hy List.not_mem_nil⟩
  | cons x xs ih =>
    obtain ⟨hfrom,hle,hleast⟩ := ih (better size need best x)
    have hx : (better size need best x).1 ≤ best.1 ∧
        (fits size need x = true → (better size need best x).1 ≤ size x) := by
      unfold better
      split
      · rename_i hb
        exact ⟨Nat.le_of_lt hb.2, fun _ => Nat.le_refl _⟩
      · rename_i hb
        exact ⟨Nat.le_refl _, fun hf => Nat.le_of_not_lt fun hlt => hb ⟨hf, hlt⟩⟩
    refine ⟨?_, Nat.le_trans hle hx.1, fun y hy hf => ?_⟩
    · cases hfrom with
      | inl heq =>
        rw [List.foldl_cons, heq]
        unfold better
        split
        · rename_i hb
          exact Or.inr ⟨x, List.mem_cons_self, rfl, hb.1⟩
        · exact Or.inl rfl
      | inr hnew =>
        obtain ⟨y,hy,heq,hf⟩ := hnew
        exact Or.inr ⟨y, List.mem_cons_of_mem _ hy, heq, hf⟩
    · cases List.mem_cons.mp hy with
      | inl heq =>
        rw [heq] at hf ⊢
        exact Nat.le_trans hle (hx.2 hf)
      | inr hmem => exact hleast y hmem hf

end NetKernel.BestFit
