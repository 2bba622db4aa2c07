import NetKernel.Memory.RefCounts

/-! The account of an object in a state of the threads, and what the step of one thread does
to the accounts. -/
namespace NetKernel.SharedRefs
open Function Runs Tally
variable {τ : Type*}

/-- The variable whose reference the thread has given up and not replaced yet. -/
def Pc.released : Pc → Option Var
  | .idle | .removing _ _ _ => none
  | .deleting v _ _ _ _ | .ending v _ _ => some v

def Pc.delPtr : Pc → Option Nat
  | .deleting _ _ delPtr _ _ => delPtr
  | _ => none

/-- The `Middle` that the thread is about to delete. -/
def Pc.deleteM : Pc → Option Nat
  | .deleting _ _ _ deleteM _ => deleteM
  | _ => none

open Classical in
/-- What a live variable points to. The pointer that is left in a variable between the
section of a `remove` and its next value does not count. -/
noncomputable def held (s : State τ) (v : Var) : Option (Kind × Nat) :=
  if ∃ t, (s.pc t).released = some v then none
  else (s.refs v).bind fun r => r.middle.map fun m => (r.kind, m)

noncomputable def account (s : State τ) (m : Nat) : Account where
  middle := s.middles m
  refs k := tally (held s) (k, m)
  deleting := tally (Pc.delPtr ∘ s.pc) m
  freeing := tally (Pc.deleteM ∘ s.pc) m
  deleted := s.deleted.count m
  freed := s.freed.count m
  wrapped := s.wrapped.count m

/-- Where threads are: no two on one variable, and each on variables that are there. -/
structure Placed (s : State τ) : Prop where
  alone : ∀ t t' v, (s.pc t).Uses v → (s.pc t').Uses v → t = t'
  removing : ∀ t v k rest, s.pc t = .removing v k rest → ∃ m, s.refs v = some ⟨k, m⟩
  source : ∀ t v, (s.pc t).source = some v → (s.refs v).isSome ∧ (s.pc t).target ≠ some v

structure Inv (s : State τ) : Prop extends Placed s where
  balanced : ∀ m, (account s m).Balanced m (m < s.made)

theorem released_target {p : Pc} {v : Var} (h : p.released = some v) : p.target = some v := by
  cases p with
  | idle => cases h
  | removing => cases h
  | deleting => exact h
  | ending => exact h

theorem held_released {s : State τ} {t : τ} {v : Var} (hr : (s.pc t).released = some v) :
    held s v = none := if_pos ⟨t, hr⟩

section Step
variable [DecidableEq τ] {s s' : State τ} {t : τ} {v : Var} {p : Pc} {k : Kind} {m : Nat}

/-- One thread moves on, on a variable that no other uses. -/
structure Moves (s s' : State τ) (t : τ) (v : Var) (p : Pc) : Prop where
  pc : s'.pc = update s.pc t p
  refs : ∀ x, x ≠ v → s'.refs x = s.refs x
  before : ∀ x, (s.pc t).target = some x → x = v
  after : ∀ x, p.target = some x → x = v
  apart : ∀ t', t' ≠ t → ¬(s.pc t').Uses v

theorem Moves.self (h : Moves s s' t v p) : s'.pc t = p := by rw [h.pc, update_self]

theorem Moves.other (h : Moves s s' t v p) {t' : τ} (ht : t' ≠ t) : s'.pc t' = s.pc t' := by
  rw [h.pc, update_of_ne ht]

theorem Moves.held (h : Moves s s' t v p) :
    held s' = update (held s) v (SharedRefs.held s' v) := by
  funext x
  by_cases hx : x = v
  · subst hx
    rw [update_self]
  · rw [update_of_ne hx, SharedRefs.held, SharedRefs.held, h.refs x hx]
    have hiff : (∃ t, (s'.pc t).released = some x) ↔ ∃ t, (s.pc t).released = some x := by
      refine exists_congr fun t' => ?_
      by_cases ht : t' = t
      · subst ht
        rw [h.self]
        refine iff_of_false (fun hr => hx (h.after x (released_target hr))) fun hr => ?_
        exact hx (h.before x (released_target hr))
      · rw [h.other ht]
    by_cases hr : ∃ t, (s.pc t).released = some x
    · rw [if_pos hr, if_pos (hiff.mpr hr)]
    · rw [if_neg hr, if_neg fun hr' => hr (hiff.mp hr')]

theorem Moves.held_released (h : Moves s s' t v p) (hp : p.released = some v) :
    SharedRefs.held s' v = none :=
  SharedRefs.held_released (t := t) (by rw [h.self]; exact hp)

theorem Moves.held_self (h : Moves s s' t v p) (hp : p.released = none) :
    SharedRefs.held s' v = (s'.refs v).bind fun r => r.middle.map fun m => (r.kind, m) := by
  refine if_neg ?_
  rintro ⟨t',hr⟩
  by_cases ht : t' = t
  · rw [ht, h.self, hp] at hr
    cases hr
  · rw [h.other ht] at hr
    exact h.apart t' ht (Or.inl (released_target hr))

theorem Moves.placed (h : Moves s s' t v p) (hs : Placed s)
    (huses : ∀ x, p.Uses x → ∀ t', t' ≠ t → ¬(s.pc t').Uses x)
    (hrem : ∀ x k rest, p = .removing x k rest → ∃ m, s'.refs x = some ⟨k, m⟩)
    (hsrc : ∀ x, p.source = some x → (s'.refs x).isSome ∧ p.target ≠ some x) : Placed s' := by
  constructor
  · intro t₁ t₂ x h₁ h₂
    by_cases e₁ : t₁ = t <;> by_cases e₂ : t₂ = t
    · rw [e₁, e₂]
    · rw [e₁, h.self] at h₁
      rw [h.other e₂] at h₂
      exact absurd h₂ (huses x h₁ t₂ e₂)
    · rw [e₂, h.self] at h₂
      rw [h.other e₁] at h₁
      exact absurd h₁ (huses x h₂ t₁ e₁)
    · rw [h.other e₁] at h₁
      rw [h.other e₂] at h₂
      exact hs.alone t₁ t₂ x h₁ h₂
  · intro t' x k rest ht'
    by_cases e : t' = t
    · rw [e, h.self] at ht'
      exact hrem x k rest ht'
    · rw [h.other e] at ht'
      have hx : x ≠ v := by
        rintro rfl
        exact h.apart t' e (Or.inl (by rw [ht']; rfl))
      rw [h.refs x hx]
      exact hs.removing t' x k rest ht'
  · intro t' x ht'
    by_cases e : t' = t
    · rw [e, h.self] at ht' ⊢
      exact hsrc x ht'
    · rw [h.other e] at ht' ⊢
      have hx : x ≠ v := by
        rintro rfl
        exact h.apart t' e (Or.inr ht')
      rw [h.refs x hx]
      exact hs.source t' x ht'

theorem Moves.refs_tally (h : Moves s s' t v p) (k : Kind) (m : Nat) :
    tally (SharedRefs.held s') (k, m) + (if SharedRefs.held s v = some (k, m) then 1 else 0) =
      tally (SharedRefs.held s) (k, m) +
        if SharedRefs.held s' v = some (k, m) then 1 else 0 := by
  rw [h.held]
  have := tally_update (SharedRefs.held s) v (SharedRefs.held s' v) (k, m)
  rwa [update_self]

theorem Moves.pending [Finite τ] (h : Moves s s' t v p) (f : Pc → Option Nat) (m : Nat) :
    tally (f ∘ s'.pc) m + (if f (s.pc t) = some m then 1 else 0) =
      tally (f ∘ s.pc) m + if f p = some m then 1 else 0 := by
  rw [h.pc, comp_update]
  exact tally_update (f ∘ s.pc) t (f p) m

theorem Moves.refs_eq (h : Moves s s' t v p) {k : Kind} {m : Nat}
    (hheld : SharedRefs.held s' v = some (k, m) ↔ SharedRefs.held s v = some (k, m)) :
    (account s' m).refs k = (account s m).refs k := by
  have := h.refs_tally k m
  simp only [hheld] at this
  exact Nat.add_right_cancel this

theorem Moves.pending_eq [Finite τ] (h : Moves s s' t v p) {f : Pc → Option Nat} {m : Nat}
    (hf : f p = some m ↔ f (s.pc t) = some m) : tally (f ∘ s'.pc) m = tally (f ∘ s.pc) m := by
  have := h.pending f m
  simp only [hf] at this
  exact Nat.add_right_cancel this

theorem Moves.account_eq [Finite τ] (h : Moves s s' t v p)
    (hheld : ∀ k, SharedRefs.held s' v = some (k, m) ↔ SharedRefs.held s v = some (k, m))
    (hdel : p.delPtr = some m ↔ (s.pc t).delPtr = some m)
    (hfree : p.deleteM = some m ↔ (s.pc t).deleteM = some m)
    (hmiddle : s'.middles m = s.middles m) (hdeleted : s'.deleted.count m = s.deleted.count m)
    (hfreed : s'.freed.count m = s.freed.count m)
    (hwrapped : s'.wrapped.count m = s.wrapped.count m) : account s' m = account s m := by
  have hrefs : (account s' m).refs = (account s m).refs := funext fun k => h.refs_eq (hheld k)
  have hd := h.pending_eq (f := Pc.delPtr) hdel
  have hf := h.pending_eq (f := Pc.deleteM) hfree
  rw [account, account, Account.mk.injEq]
  exact ⟨hmiddle, hrefs, hd, hf, hdeleted, hfreed, hwrapped⟩

theorem Moves.quiet [Finite τ] (h : Moves s s' t v p)
    (hs : ∀ m, (account s m).Balanced m (m < s.made))
    (hheld : SharedRefs.held s' v = SharedRefs.held s v) (hdel : p.delPtr = (s.pc t).delPtr)
    (hfree : p.deleteM = (s.pc t).deleteM) (hmiddles : s'.middles = s.middles)
    (hmade : s'.made = s.made) (hdeleted : s'.deleted = s.deleted) (hfreed : s'.freed = s.freed)
    (hwrapped : s'.wrapped = s.wrapped) (m : Nat) :
    (account s' m).Balanced m (m < s'.made) := by
  have heq : account s' m = account s m := h.account_eq (fun k => by rw [hheld]) (by rw [hdel])
    (by rw [hfree]) (by rw [hmiddles]) (by rw [hdeleted]) (by rw [hfreed]) (by rw [hwrapped])
  rw [heq, hmade]
  exact hs m

omit [DecidableEq τ] in
theorem held_eq (h : ∀ t, (s.pc t).released ≠ some v) :
    held s v = (s.refs v).bind fun r => r.middle.map fun m => (r.kind, m) :=
  if_neg fun ⟨t,hr⟩ => h t hr

omit [DecidableEq τ] in
theorem held_null (h : (s.refs v).bind Ref.middle = none) : held s v = none := by
  rw [held]
  split
  · rfl
  · cases hr : s.refs v with
    | none => rfl
    | some r =>
      rw [hr] at h
      change r.middle = none at h
      change r.middle.map _ = none
      rw [h, Option.map_none]

omit [DecidableEq τ] in
theorem Placed.held_removing {rest : Ending} (h : Placed s) (hpc : s.pc t = .removing v k rest)
    (hr : s.refs v = some ⟨k, some m⟩) : held s v = some (k, m) := by
  rw [held_eq fun t' hrel => ?_, hr]
  · rfl
  · have ht : t' = t := h.alone t' t v (Or.inl (released_target hrel)) (Or.inl (by rw [hpc]; rfl))
    rw [ht, hpc] at hrel
    cases hrel

omit [DecidableEq τ] in
theorem Placed.held_source {source : Var} {r : Ref} (h : Placed s)
    (hsrc : (s.pc t).source = some source) (hr : s.refs source = some r) (hm : r.middle = some m) :
    held s source = some (r.kind, m) := by
  rw [held_eq fun t' hrel => ?_, hr]
  · change r.middle.map _ = _
    rw [hm, Option.map_some]
  · have ht : t' = t := h.alone t' t source (Or.inl (released_target hrel)) (Or.inr hsrc)
    rw [ht] at hrel
    exact (h.source t source hsrc).2 (released_target hrel)

omit [DecidableEq τ] in
theorem refs_pos (h : held s v = some (k, m)) : 0 < (account s m).refs k :=
  tally_pos.mpr ⟨v, h⟩

/-! The steps. -/

theorem Placed.moves (h : Placed s) (htarget : (s.pc t).target = some v)
    (hpc : s'.pc = update s.pc t p) (hrefs : ∀ x, x ≠ v → s'.refs x = s.refs x)
    (hp : p.target = some v ∨ p = .idle) : Moves s s' t v p := by
  refine ⟨hpc, hrefs, fun x hx => ?_, fun x hx => ?_, fun t' ht' hu => ?_⟩
  · exact Option.some.inj (hx.symm.trans htarget)
  · obtain hp | rfl := hp
    · exact Option.some.inj (hx.symm.trans hp)
    · cases hx
  · exact ht' (h.alone t' t v hu (Or.inl htarget))

theorem Moves.within (h : Moves s s' t v p) (hs : Placed s)
    (htarget : (s.pc t).target = some v)
    (hsource : ∀ x, p.source = some x → (s.pc t).source = some x)
    (hrem : ∀ x k rest, p ≠ .removing x k rest) : Placed s' := by
  have hv : (s.pc t).Uses v := Or.inl htarget
  refine h.placed hs (fun x hx t' ht' hu => ?_) (fun x k rest hp => absurd hp (hrem x k rest))
    fun x hx => ?_
  · obtain hx | hx := hx
    · exact h.apart t' ht' (h.after x hx ▸ hu)
    · exact ht' (hs.alone t' t x hu (Or.inr (hsource x hx)))
  · obtain ⟨hsome,hne⟩ := hs.source t x (hsource x hx)
    have hxv : x ≠ v := by
      rintro rfl
      exact hne htarget
    rw [h.refs x hxv]
    exact ⟨hsome, fun hp => hxv (h.after x hp)⟩

theorem count_append_other {l : List Nat} {m x : Nat} (h : m ≠ x) :
    (l ++ [x]).count m = l.count m := by
  rw [List.count_append, List.count_eq_zero_of_not_mem (l := [x]) (by simpa using h), Nat.add_zero]

theorem count_append_self (l : List Nat) (x : Nat) : (l ++ [x]).count x = l.count x+1 := by
  rw [List.count_append, List.count_singleton_self]

theorem Moves.single [Finite τ] (h : Moves s s' t v p)
    (hs : ∀ m, (account s m).Balanced m (m < s.made))
    (m : Nat) (hheld : ∀ k m', m' ≠ m →
      (SharedRefs.held s' v = some (k, m') ↔ SharedRefs.held s v = some (k, m')))
    (hdel : ∀ m', m' ≠ m → (p.delPtr = some m' ↔ (s.pc t).delPtr = some m'))
    (hfree : ∀ m', m' ≠ m → (p.deleteM = some m' ↔ (s.pc t).deleteM = some m'))
    (hmiddle : ∀ m', m' ≠ m → s'.middles m' = s.middles m')
    (hdeleted : ∀ m', m' ≠ m → s'.deleted.count m' = s.deleted.count m')
    (hfreed : ∀ m', m' ≠ m → s'.freed.count m' = s.freed.count m')
    (hwrapped : ∀ m', m' ≠ m → s'.wrapped.count m' = s.wrapped.count m')
    (hmade : ∀ m', m' ≠ m → (m' < s'.made ↔ m' < s.made))
    (hm : (account s' m).Balanced m (m < s'.made)) (m' : Nat) :
    (account s' m').Balanced m' (m' < s'.made) := by
  by_cases he : m' = m
  · rwa [he]
  · have heq : account s' m' = account s m' := h.account_eq (fun k => hheld k m' he) (hdel m' he)
      (hfree m' he) (hmiddle m' he) (hdeleted m' he) (hfreed m' he) (hwrapped m' he)
    rw [heq, hmade m' he]
    exact hs m'

end Step
end NetKernel.SharedRefs
