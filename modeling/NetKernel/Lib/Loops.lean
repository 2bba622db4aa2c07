import Mathlib.Logic.Relation
import Mathlib.Data.Set.Finite.Basic

/-! Loops whose body gives the next state or leaves with a result. -/
namespace NetKernel.Loops
variable {σ β : Type*}

/-- At most `fuel` rounds; `none` is a loop that has not left by then. -/
def loop (body : σ → σ ⊕ β) : Nat → σ → Option β
  | 0, _ => none
  | fuel+1, s =>
    match body s with
    | .inl t => loop body fuel t
    | .inr r => some r

/-- The loop leaves with `r` after finitely many rounds. -/
def Returns (body : σ → σ ⊕ β) (s : σ) (r : β) : Prop := ∃ fuel, loop body fuel s = some r

variable {body : σ → σ ⊕ β} {s t : σ} {r r' : β} {n k : Nat}

theorem loop_next (h : body s = .inl t) : loop body (n+1) s = loop body n t := by
  rw [loop, h]

theorem loop_done (h : body s = .inr r) : loop body (n+1) s = some r := by rw [loop, h]

theorem loop_mono (h : loop body n s = some r) (hk : n ≤ k) : loop body k s = some r := by
  induction n generalizing s k with
  | zero => cases h
  | succ n ih =>
    obtain ⟨k,rfl⟩ := Nat.exists_eq_add_of_le' (Nat.le_trans (Nat.succ_pos n) hk)
    cases hb : body s with
    | inl t =>
      rw [loop_next hb] at h ⊢
      exact ih h (Nat.le_of_succ_le_succ hk)
    | inr r' =>
      rw [loop_done hb] at h ⊢
      exact h

theorem Returns.unique (h : Returns body s r) (h' : Returns body s r') : r = r' := by
  obtain ⟨n,hn⟩ := h
  obtain ⟨k,hk⟩ := h'
  have hn := loop_mono hn (Nat.le_max_left n k)
  rw [loop_mono hk (Nat.le_max_right n k)] at hn
  exact (Option.some.inj hn).symm

theorem returns_done (h : body s = .inr r) : Returns body s r := ⟨1, loop_done h⟩

theorem returns_next (h : body s = .inl t) : Returns body s r ↔ Returns body t r := by
  constructor
  · rintro ⟨n,hn⟩
    cases n with
    | zero => cases hn
    | succ n => exact ⟨n, (loop_next h).symm.trans hn⟩
  · rintro ⟨n,hn⟩
    exact ⟨n+1, (loop_next h).trans hn⟩

/-- The invariant rule: what every round keeps holds where the loop leaves. -/
theorem Returns.post {P : σ → Prop} {Q : β → Prop} (hr : Returns body s r)
    (next : ∀ s t, P s → body s = .inl t → P t) (done : ∀ s r, P s → body s = .inr r → Q r)
    (hs : P s) : Q r := by
  obtain ⟨n,hn⟩ := hr
  induction n generalizing s with
  | zero => cases hn
  | succ n ih =>
    cases hb : body s with
    | inl t =>
      rw [loop_next hb] at hn
      exact ih (next s t hs hb) hn
    | inr r' =>
      rw [loop_done hb] at hn
      cases hn
      exact done s r hs hb

/-- The rule of total correctness: an invariant, and a measure that every round lowers. -/
theorem returns_of_measure {P : σ → Prop} {Q : β → Prop} (μ : σ → Nat)
    (round : ∀ s, P s → (∃ r, body s = .inr r ∧ Q r) ∨ ∃ t, body s = .inl t ∧ P t ∧ μ t < μ s)
    (hs : P s) : ∃ r, Returns body s r ∧ Q r := by
  induction hμ : μ s using Nat.strongRecOn generalizing s with
  | ind m ih =>
    obtain ⟨r,hb,hr⟩ | ⟨t,hb,ht,hlt⟩ := round s hs
    · exact ⟨r, returns_done hb, hr⟩
    · obtain ⟨r,hret,hr⟩ := ih (μ t) (hμ ▸ hlt) ht rfl
      exact ⟨r, (returns_next hb).mpr hret, hr⟩

theorem not_returns {P : σ → Prop} (round : ∀ s, P s → ∃ t, body s = .inl t ∧ P t) (hs : P s) :
    ¬ Returns body s r := by
  rintro ⟨n,hn⟩
  induction n generalizing s with
  | zero => cases hn
  | succ n ih =>
    obtain ⟨t,hb,ht⟩ := round s hs
    rw [loop_next hb] at hn
    exact ih ht hn

/-! Termination, where finitely many states can be reached. -/

open Relation

def Leads (body : σ → σ ⊕ β) (s t : σ) : Prop := body s = .inl t

theorem leads_post {P : σ → Prop} (next : ∀ s t, P s → body s = .inl t → P t)
    (h : ReflTransGen (Leads body) s t) (hs : P s) : P t := by
  induction h with
  | refl => exact hs
  | tail _ hst ih => exact next _ _ ih hst

theorem not_returns_of_cycle (hs : ReflTransGen (Leads body) s t)
    (ht : TransGen (Leads body) t t) : ¬ Returns body s r := by
  refine not_returns (P := fun u => ReflTransGen (Leads body) u t) (fun u hu => ?_) hs
  obtain ⟨v,huv,hvt⟩ := TransGen.head'_iff.mp (ht.trans_right hu)
  exact ⟨v, huv, hvt⟩

theorem returns_of_acyclic (hfin : {t | ReflTransGen (Leads body) s t}.Finite)
    (hacyclic : ∀ t, ReflTransGen (Leads body) s t → ¬ TransGen (Leads body) t t) :
    ∃ r, Returns body s r := by
  let after (u t : {t // ReflTransGen (Leads body) s t}) : Prop := TransGen (Leads body) t.1 u.1
  have : Finite {t // ReflTransGen (Leads body) s t} := hfin
  have : IsTrans _ after := ⟨fun a b c hab hbc => hbc.trans hab⟩
  have : Std.Irrefl after := ⟨fun a => hacyclic a.1 a.2⟩
  have hwf : WellFounded after := Finite.wellFounded_of_trans_of_irrefl after
  have hall (t : {t // ReflTransGen (Leads body) s t}) : ∃ r, Returns body t.1 r := by
    induction t using hwf.induction with
    | _ t ih =>
      cases hb : body t.1 with
      | inr r => exact ⟨r, returns_done hb⟩
      | inl u =>
        obtain ⟨r,hr⟩ := ih ⟨u, t.2.tail hb⟩ (TransGen.single hb)
        exact ⟨r, (returns_next hb).mpr hr⟩
  exact hall ⟨s, ReflTransGen.refl⟩

/-- A loop with finitely many states returns exactly when it never comes back to one. -/
theorem returns_iff_acyclic (hfin : {t | ReflTransGen (Leads body) s t}.Finite) :
    (∃ r, Returns body s r) ↔
      ∀ t, ReflTransGen (Leads body) s t → ¬ TransGen (Leads body) t t :=
  ⟨fun ⟨_,hr⟩ _ hs ht => not_returns_of_cycle hs ht hr, returns_of_acyclic hfin⟩

theorem returns_along {τ γ : Type*} {body' : τ → τ ⊕ γ} (f : σ → τ)
    (next : ∀ s t, body s = .inl t → body' (f s) = .inl (f t))
    (done : ∀ s r, body s = .inr r → ∃ r', body' (f s) = .inr r') :
    (∃ r, Returns body s r) ↔ ∃ r', Returns body' (f s) r' := by
  constructor
  · rintro ⟨r,n,hn⟩
    induction n generalizing s with
    | zero => cases hn
    | succ n ih =>
      cases hb : body s with
      | inl t =>
        rw [loop_next hb] at hn
        obtain ⟨r',hr'⟩ := ih hn
        exact ⟨r', (returns_next (next s t hb)).mpr hr'⟩
      | inr r =>
        obtain ⟨r',hr'⟩ := done s r hb
        exact ⟨r', returns_done hr'⟩
  · rintro ⟨r',n,hn⟩
    induction n generalizing s with
    | zero => cases hn
    | succ n ih =>
      cases hb : body s with
      | inl t =>
        rw [loop_next (next s t hb)] at hn
        obtain ⟨r,hr⟩ := ih hn
        exact ⟨r, (returns_next hb).mpr hr⟩
      | inr r => exact ⟨r, returns_done hb⟩

end NetKernel.Loops
