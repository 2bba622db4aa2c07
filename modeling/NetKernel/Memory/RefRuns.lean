import NetKernel.Memory.RefAccounts

/-! Runs of threads on `StrongRef` and `WeakRef` variables: every account stays balanced, so
the counts are exact, and each deletion takes place once. -/
namespace NetKernel.SharedRefs
open Function Runs Tally
variable {τ : Type*}

section Step
variable [DecidableEq τ] [Finite τ] {s s' : State τ} {t : τ} {v : Var} {p : Pc} {k : Kind}
  {m : Nat} {rest : Ending}

theorem Inv.takeOne {M M' : Middle} {delPtr : Option Nat} {deleteM : Bool} (h : Inv s)
    (hpc : s.pc t = .removing v k rest) (hr : s.refs v = some ⟨k, some m⟩)
    (hM : s.middles m = some M) (hrem : M.remove k = some (M', delPtr, deleteM)) :
    Inv { s.goto t (.deleting v k delPtr (if deleteM then some m else none) rest) with
      middles := update s.middles m (some M') } := by
  set p : Pc := .deleting v k delPtr (if deleteM then some m else none) rest with hp
  set s' : State τ := { s.goto t p with middles := update s.middles m (some M') } with hs'
  have htarget : (s.pc t).target = some v := by rw [hpc]; rfl
  have hmoves : Moves s s' t v p := h.moves htarget rfl (fun _ _ => rfl) (Or.inl rfl)
  have hheld : held s v = some (k, m) := h.held_removing hpc hr
  have hgone : held s' v = none := hmoves.held_released rfl
  have hk := refs_pos hheld
  -- what is to be deleted is the object of this `Middle`
  have hown {x : Nat} (hx : x ≠ m) : delPtr ≠ some x := by
    obtain ⟨M₀,hM₀,hpoints,hcount⟩ := (h.balanced m).middle hk
    cases hM.symm.trans hM₀
    obtain ⟨_,_,_,hrem',-,-,hdelPtr,-⟩ := Middle.remove_spec hpoints hcount
    cases hrem.symm.trans hrem'
    rw [hdelPtr]
    split
    · exact fun he => hx (Option.some.inj he).symm
    · exact nofun
  have hown' {x : Nat} (hx : x ≠ m) : (if deleteM then some m else none) ≠ some x := by
    split
    · exact fun he => hx (Option.some.inj he).symm
    · exact nofun
  refine ⟨hmoves.within h.toPlaced htarget (fun x hx => by rw [hpc]; exact hx) nofun, ?_⟩
  refine hmoves.single h.balanced m (fun k' x hx => ?_) (fun x hx => ?_) (fun x hx => ?_)
    (fun x hx => update_of_ne hx _ _) (fun _ _ => rfl) (fun _ _ => rfl) (fun _ _ => rfl)
    (fun _ _ => Iff.rfl) ?_
  · rw [hgone, hheld]
    exact iff_of_false nofun fun he => hx (congrArg Prod.snd (Option.some.inj he)).symm
  · rw [hpc]
    exact iff_of_false (hown hx) nofun
  · rw [hpc]
    exact iff_of_false (hown' hx) nofun
  · refine (h.balanced m).remove hM hk hrem (update_self _ _ _) (fun k' => ?_) ?_ ?_ rfl rfl rfl
    · have htally := hmoves.refs_tally k' m
      rw [hgone, hheld] at htally
      simp only [Option.some.injEq, Prod.mk.injEq, and_true, reduceCtorEq, if_false,
        Nat.add_zero, eq_comm (a := k)] at htally
      exact htally
    · have hpend := hmoves.pending Pc.delPtr m
      rw [hpc] at hpend
      exact hpend
    · have hpend := hmoves.pending Pc.deleteM m
      rw [hpc] at hpend
      cases deleteM with
      | true => exact hpend.trans (congrArg _ (if_pos rfl))
      | false => exact hpend

theorem Inv.remove (h : Inv s) (hpc : s.pc t = .removing v k rest) :
    ∃ s', s.remove t v k rest = some s' ∧ Inv s' := by
  obtain ⟨middle,hr⟩ := h.removing t v k rest hpc
  rw [State.remove, hr]
  cases middle with
  | none =>
    have htarget : (s.pc t).target = some v := by rw [hpc]; rfl
    have hmoves : Moves s (s.goto t (.ending v k rest)) t v (.ending v k rest) :=
      h.moves htarget rfl (fun _ _ => rfl) (Or.inl rfl)
    have hnull : held s v = none := held_null (by rw [hr]; rfl)
    refine ⟨_, rfl, hmoves.within h.toPlaced htarget (fun x hx => by rw [hpc]; exact hx) nofun, ?_⟩
    exact hmoves.quiet h.balanced ((hmoves.held_released rfl).trans hnull.symm) (by rw [hpc]; rfl)
      (by rw [hpc]; rfl) rfl rfl rfl rfl rfl
  | some m =>
    obtain ⟨M,hM,hpoints,hcount⟩ := (h.balanced m).middle (refs_pos (h.held_removing hpc hr))
    obtain ⟨M',delPtr,deleteM,hrem,-⟩ := Middle.remove_spec hpoints hcount
    change s.middles m = some M at hM
    refine ⟨_, ?_, h.takeOne hpc hr hM hrem⟩
    simp only [Option.bind_some, hM, hrem]

theorem Inv.deleteObject {object : Nat} {deleteM : Option Nat} (h : Inv s)
    (hpc : s.pc t = .deleting v k (some object) deleteM rest) :
    Inv { s.goto t (.deleting v k none deleteM rest) with deleted := s.deleted ++ [object] } := by
  set p : Pc := .deleting v k none deleteM rest with hp
  set s' : State τ := { s.goto t p with deleted := s.deleted ++ [object] } with hs'
  have htarget : (s.pc t).target = some v := by rw [hpc]; rfl
  have hmoves : Moves s s' t v p := h.moves htarget rfl (fun _ _ => rfl) (Or.inl rfl)
  have hgone : held s v = none := held_released (t := t) (by rw [hpc]; rfl)
  have hheld : held s' v = held s v := (hmoves.held_released rfl).trans hgone.symm
  have hfree : p.deleteM = (s.pc t).deleteM := by rw [hpc]; rfl
  refine ⟨hmoves.within h.toPlaced htarget (fun x hx => by rw [hpc]; exact hx) nofun, ?_⟩
  refine hmoves.single h.balanced object (fun _ _ _ => by rw [hheld]) (fun x hx => ?_)
    (fun _ _ => by rw [hfree]) (fun _ _ => rfl) (fun x hx => count_append_other hx)
    (fun _ _ => rfl) (fun _ _ => rfl) (fun _ _ => Iff.rfl) ?_
  · rw [hpc]
    exact iff_of_false nofun fun he => hx (Option.some.inj he).symm
  · refine (h.balanced object).delete rfl (funext fun k' => hmoves.refs_eq (by rw [hheld])) ?_
      (hmoves.pending_eq (by rw [hfree])) (count_append_self _ _) rfl rfl
    have hpend := hmoves.pending Pc.delPtr object
    rw [hpc] at hpend
    exact (congrArg _ (if_pos rfl).symm).trans hpend

omit [DecidableEq τ] in
theorem Inv.unreferenced (h : Inv s) (hm : (s.pc t).deleteM = some m) :
    (s.middles m).isSome ∧ (account s m).refs .strong = 0 ∧ (account s m).refs .weak = 0 :=
  ((h.balanced m).unreferenced (tally_pos.mpr ⟨t, hm⟩)).2

theorem Inv.deleteMiddle (h : Inv s) (hpc : s.pc t = .deleting v k none (some m) rest) :
    Inv { s.goto t (.ending v k rest) with
      middles := update s.middles m none, freed := s.freed ++ [m] } := by
  set p : Pc := .ending v k rest with hp
  set s' : State τ := { s.goto t p with
    middles := update s.middles m none, freed := s.freed ++ [m] } with hs'
  have htarget : (s.pc t).target = some v := by rw [hpc]; rfl
  have hmoves : Moves s s' t v p := h.moves htarget rfl (fun _ _ => rfl) (Or.inl rfl)
  have hgone : held s v = none := held_released (t := t) (by rw [hpc]; rfl)
  have hheld : held s' v = held s v := (hmoves.held_released rfl).trans hgone.symm
  have hdel : p.delPtr = (s.pc t).delPtr := by rw [hpc]; rfl
  refine ⟨hmoves.within h.toPlaced htarget (fun x hx => by rw [hpc]; exact hx) nofun, ?_⟩
  refine hmoves.single h.balanced m (fun _ _ _ => by rw [hheld]) (fun _ _ => by rw [hdel])
    (fun x hx => ?_) (fun x hx => update_of_ne hx _ _) (fun _ _ => rfl)
    (fun x hx => count_append_other hx) (fun _ _ => rfl) (fun _ _ => Iff.rfl) ?_
  · rw [hpc]
    exact iff_of_false nofun fun he => hx (Option.some.inj he).symm
  · refine (h.balanced m).free (update_self _ _ _)
      (funext fun k' => hmoves.refs_eq (by rw [hheld])) (hmoves.pending_eq (by rw [hdel])) ?_ rfl
      (count_append_self _ _) rfl
    have hpend := hmoves.pending Pc.deleteM m
    rw [hpc] at hpend
    exact (congrArg _ (if_pos rfl).symm).trans hpend

theorem Inv.delete {delPtr deleteM : Option Nat} (h : Inv s)
    (hpc : s.pc t = .deleting v k delPtr deleteM rest) :
    ∃ s', s.delete t v k rest delPtr deleteM = some s' ∧ Inv s' := by
  cases delPtr with
  | some object => exact ⟨_, rfl, h.deleteObject hpc⟩
  | none =>
    cases deleteM with
    | some m =>
      have hsome := (h.unreferenced (t := t) (m := m) (by rw [hpc]; rfl)).1
      exact ⟨_, if_pos hsome, h.deleteMiddle hpc⟩
    | none =>
      have htarget : (s.pc t).target = some v := by rw [hpc]; rfl
      have hmoves : Moves s (s.goto t (.ending v k rest)) t v (.ending v k rest) :=
        h.moves htarget rfl (fun _ _ => rfl) (Or.inl rfl)
      have hgone : held s v = none := held_released (t := t) (by rw [hpc]; rfl)
      refine ⟨_, rfl, hmoves.within h.toPlaced htarget (fun x hx => by rw [hpc]; exact hx) nofun,
        ?_⟩
      exact hmoves.quiet h.balanced ((hmoves.held_released rfl).trans hgone.symm)
        (by rw [hpc]; rfl) (by rw [hpc]; rfl) rfl rfl rfl rfl rfl

theorem Inv.finish {r : Option Ref} (h : Inv s) (hpc : s.pc t = .ending v k rest)
    (hr : r.bind Ref.middle = none) : Inv (s.finish t v r) := by
  have htarget : (s.pc t).target = some v := by rw [hpc]; rfl
  have hmoves : Moves s (s.finish t v r) t v .idle :=
    h.moves htarget rfl (fun x hx => update_of_ne hx _ _) (Or.inr rfl)
  have hgone : held s v = none := held_released (t := t) (by rw [hpc]; rfl)
  have hgone' : held (s.finish t v r) v = none := held_null (by
    change (update s.refs v r v).bind Ref.middle = none
    rw [update_self, hr])
  refine ⟨hmoves.within h.toPlaced htarget nofun nofun, ?_⟩
  exact hmoves.quiet h.balanced (hgone'.trans hgone.symm) (by rw [hpc]; rfl) (by rw [hpc]; rfl)
    rfl rfl rfl rfl rfl

omit [Finite τ] in
theorem copy_eq {source : Var} {r : Ref} {M : Middle} (hr : s.refs source = some r)
    (hm : r.middle = some m) (hM : s.middles m = some M) :
    s.ending t v k (.copy source) = some { s.finish t v
      (some ⟨k, if (M.add k).2 then some m else none⟩) with
        middles := update s.middles m (some (M.add k).1) } := by
  rw [State.ending, hr, Option.bind_some]
  simp only [hm, hM]

omit [DecidableEq τ] [Finite τ] in
theorem refs_bound : (account s m).refs k+1 < 2^64 := by
  have hle : (account s m).refs k ≤ Nat.card Var := tally_le
  rw [Nat.card_fin] at hle
  omega

theorem Inv.copy {source : Var} {M : Middle} (h : Inv s)
    (hpc : s.pc t = .ending v k (.copy source)) (hM : s.middles m = some M) :
    Inv { s.finish t v (some ⟨k, if (M.add k).2 then some m else none⟩) with
      middles := update s.middles m (some (M.add k).1) } := by
  set r : Ref := ⟨k, if (M.add k).2 then some m else none⟩ with hr
  set s' : State τ := { s.finish t v (some r) with
    middles := update s.middles m (some (M.add k).1) } with hs'
  have htarget : (s.pc t).target = some v := by rw [hpc]; rfl
  have hmoves : Moves s s' t v .idle :=
    h.moves htarget rfl (fun x hx => update_of_ne hx _ _) (Or.inr rfl)
  have hgone : held s v = none := held_released (t := t) (by rw [hpc]; rfl)
  have hheld : held s' v = if (M.add k).2 then some (k, m) else none := by
    rw [hmoves.held_self rfl]
    change (update s.refs v (some r) v).bind _ = _
    rw [update_self]
    change r.middle.map _ = _
    rw [hr]
    cases (M.add k).2 with
    | true => rfl
    | false => rfl
  have hdel : Pc.delPtr .idle = (s.pc t).delPtr := by rw [hpc]; rfl
  have hfree : Pc.deleteM .idle = (s.pc t).deleteM := by rw [hpc]; rfl
  refine ⟨hmoves.within h.toPlaced htarget nofun nofun, ?_⟩
  refine hmoves.single h.balanced m (fun k' x hx => ?_) (fun _ _ => by rw [hdel])
    (fun _ _ => by rw [hfree]) (fun x hx => update_of_ne hx _ _) (fun _ _ => rfl)
    (fun _ _ => rfl) (fun _ _ => rfl) (fun _ _ => Iff.rfl) ?_
  · rw [hheld, hgone]
    refine iff_of_false (fun he => ?_) nofun
    split at he
    · exact hx (congrArg Prod.snd (Option.some.inj he)).symm
    · cases he
  · refine (h.balanced m).add hM refs_bound (update_self _ _ _) (fun k' => ?_)
      (hmoves.pending_eq (by rw [hdel])) (hmoves.pending_eq (by rw [hfree])) rfl rfl rfl
    have htally := hmoves.refs_tally k' m
    have hcopy : ((if (M.add k).2 then some (k, m) else none) = some (k', m)) ↔
        k' = k ∧ (M.add k).2 = true := by
      cases (M.add k).2 with
      | true => simp [eq_comm]
      | false => simp
    rw [hgone, hheld] at htally
    simp only [hcopy, reduceCtorEq, if_false, Nat.add_zero] at htally
    exact htally

theorem Inv.ending (h : Inv s) (hpc : s.pc t = .ending v k rest) :
    ∃ s', s.ending t v k rest = some s' ∧ Inv s' := by
  cases rest with
  | null => exact ⟨_, rfl, h.finish hpc rfl⟩
  | gone => exact ⟨_, rfl, h.finish hpc rfl⟩
  | copy source =>
    have hsource : (s.pc t).source = some source := by rw [hpc]; rfl
    obtain ⟨r,hr⟩ := Option.isSome_iff_exists.mp (h.source t source hsource).1
    cases hm : r.middle with
    | none => exact ⟨_, by rw [State.ending, hr, Option.bind_some, hm], h.finish hpc rfl⟩
    | some m =>
      obtain ⟨M,hM,-,-⟩ := (h.balanced m).middle (refs_pos (h.held_source hsource hr hm))
      exact ⟨_, copy_eq hr hm hM, h.copy hpc hM⟩

/-! The beginnings of operations. -/

omit [Finite τ] in
theorem Moves.begin (hidle : s.pc t = .idle) (hunused : ∀ t, ¬(s.pc t).Uses v)
    (hpc : s'.pc = update s.pc t p) (hrefs : ∀ x, x ≠ v → s'.refs x = s.refs x)
    (hp : ∀ x, p.target = some x → x = v) : Moves s s' t v p := by
  refine ⟨hpc, hrefs, fun x hx => ?_, hp, fun t' _ => hunused t'⟩
  rw [hidle] at hx
  cases hx

theorem Inv.make (h : Inv s) (hidle : s.pc t = .idle) (hunused : ∀ t, ¬(s.pc t).Uses v)
    (hv : s.refs v = none) (k : Kind) : Inv (s.make v k) := by
  have hpc : s.pc = update s.pc t .idle := by rw [← hidle, update_eq_self]
  have hgone : held s v = none := held_null (by rw [hv]; rfl)
  have hfresh : ¬s.made < s.made := Nat.lt_irrefl _
  have hlater (x : Nat) (hx : x ≠ s.made) : x < s.made+1 ↔ x < s.made :=
    ⟨fun hlt => Nat.lt_of_le_of_ne (Nat.le_of_lt_succ hlt) hx, Nat.lt_succ_of_lt⟩
  have hdel : Pc.delPtr .idle = (s.pc t).delPtr := by rw [hidle]
  have hfree : Pc.deleteM .idle = (s.pc t).deleteM := by rw [hidle]
  have hmoves : Moves s (s.make v k) t v .idle := by
    refine Moves.begin hidle hunused ?_ (fun x hx => ?_) nofun
    · cases k with
      | strong => exact hpc
      | weak => exact hpc
    · cases k with
      | strong => exact update_of_ne hx _ _
      | weak => exact update_of_ne hx _ _
  refine ⟨hmoves.placed h.toPlaced nofun nofun nofun, ?_⟩
  cases k with
  | strong =>
    have hheld : held (s.make v .strong) v = some (.strong, s.made) := by
      rw [hmoves.held_self rfl]
      change (update s.refs v _ v).bind _ = _
      rw [update_self]
      rfl
    refine hmoves.single h.balanced s.made (fun k' x hx => ?_) (fun _ _ => by rw [hdel])
      (fun _ _ => by rw [hfree]) (fun x hx => update_of_ne hx _ _) (fun _ _ => rfl)
      (fun _ _ => rfl) (fun x hx => count_append_other hx) hlater ?_
    · rw [hheld, hgone]
      exact iff_of_false (fun he => hx (congrArg Prod.snd (Option.some.inj he)).symm) nofun
    · refine (h.balanced s.made).wrap hfresh (Nat.lt_succ_self _) (update_self _ _ _)
        (fun k' => ?_) (hmoves.pending_eq (by rw [hdel])) (hmoves.pending_eq (by rw [hfree]))
        rfl rfl (count_append_self _ _)
      have htally := hmoves.refs_tally k' s.made
      rw [hgone, hheld] at htally
      simp only [Option.some.injEq, Prod.mk.injEq, and_true, reduceCtorEq, if_false, Nat.add_zero,
        eq_comm (a := Kind.strong)] at htally
      exact htally
  | weak =>
    have hheld : held (s.make v .weak) v = held s v := by
      rw [hgone, hmoves.held_self rfl]
      change (update s.refs v _ v).bind _ = _
      rw [update_self]
      rfl
    refine hmoves.single h.balanced s.made (fun _ _ _ => by rw [hheld]) (fun _ _ => by rw [hdel])
      (fun _ _ => by rw [hfree]) (fun _ _ => rfl) (fun x hx => count_append_other hx)
      (fun _ _ => rfl) (fun _ _ => rfl) hlater ?_
    exact (h.balanced s.made).discard hfresh (Nat.lt_succ_self _) rfl
      (funext fun k' => hmoves.refs_eq (by rw [hheld])) (hmoves.pending_eq (by rw [hdel]))
      (hmoves.pending_eq (by rw [hfree])) (count_append_self _ _) rfl rfl

theorem Inv.release {r : Ref} (h : Inv s) (hidle : s.pc t = .idle)
    (hunused : ∀ t, ¬(s.pc t).Uses v) (hr : s.refs v = some r)
    (hsource : ∀ x, rest.source = some x → x ≠ v ∧ (s.refs x).isSome ∧ ∀ t, ¬(s.pc t).Uses x) :
    Inv (s.goto t (.removing v r.kind rest)) := by
  set p : Pc := .removing v r.kind rest with hp
  have hmoves : Moves s (s.goto t p) t v p :=
    Moves.begin hidle hunused rfl (fun _ _ => rfl) fun x hx => (Option.some.inj hx).symm
  have hheld : held s v = (s.refs v).bind fun r => r.middle.map fun m => (r.kind, m) :=
    held_eq fun t' hrel => hunused t' (Or.inl (released_target hrel))
  refine ⟨hmoves.placed h.toPlaced (fun x hx t' _ => ?_) (fun x k rest' he => ?_)
    fun x hx => ?_, ?_⟩
  · obtain hx | hx := hx
    · cases hx
      exact hunused t'
    · exact (hsource x hx).2.2 t'
  · rw [hp, Pc.removing.injEq] at he
    obtain ⟨rfl,rfl,-⟩ := he
    exact ⟨r.middle, hr⟩
  · obtain ⟨hne,hsome,-⟩ := hsource x hx
    exact ⟨hsome, fun he => hne (Option.some.inj he).symm⟩
  · exact hmoves.quiet h.balanced ((hmoves.held_self rfl).trans hheld.symm) (by rw [hidle]; rfl)
      (by rw [hidle]; rfl) rfl rfl rfl rfl rfl

theorem Inv.makeNull (h : Inv s) (hidle : s.pc t = .idle) (hunused : ∀ t, ¬(s.pc t).Uses v)
    (hv : s.refs v = none) (k : Kind) :
    Inv { s with refs := update s.refs v (some ⟨k, none⟩) } := by
  set s' : State τ := { s with refs := update s.refs v (some ⟨k, none⟩) } with hs'
  have hmoves : Moves s s' t v .idle :=
    Moves.begin hidle hunused (by rw [← hidle, update_eq_self]) (fun x hx => update_of_ne hx _ _)
      nofun
  have hgone : held s v = none := held_null (by rw [hv]; rfl)
  have hgone' : held s' v = none := held_null (by
    change (update s.refs v _ v).bind _ = _
    rw [update_self]
    rfl)
  refine ⟨hmoves.placed h.toPlaced nofun nofun nofun, ?_⟩
  exact hmoves.quiet h.balanced (hgone'.trans hgone.symm) (by rw [hidle]) (by rw [hidle])
    rfl rfl rfl rfl rfl

theorem Inv.construct {source : Var} (h : Inv s) (hidle : s.pc t = .idle)
    (hunused : ∀ t, ¬(s.pc t).Uses v) (hunused' : ∀ t, ¬(s.pc t).Uses source)
    (hv : s.refs v = none) (hsource : (s.refs source).isSome) (k : Kind) :
    Inv (s.goto t (.ending v k (.copy source))) := by
  have hne : source ≠ v := by
    rintro rfl
    rw [hv] at hsource
    cases hsource
  set p : Pc := .ending v k (.copy source) with hp
  have hmoves : Moves s (s.goto t p) t v p :=
    Moves.begin hidle hunused rfl (fun _ _ => rfl) fun x hx => (Option.some.inj hx).symm
  have hgone : held s v = none := held_null (by rw [hv]; rfl)
  refine ⟨hmoves.placed h.toPlaced (fun x hx t' _ => ?_) nofun fun x hx => ?_, ?_⟩
  · obtain hx | hx := hx
    · cases hx
      exact hunused t'
    · cases hx
      exact hunused' t'
  · cases hx
    exact ⟨hsource, fun he => hne (Option.some.inj he).symm⟩
  · exact hmoves.quiet h.balanced ((hmoves.held_released rfl).trans hgone.symm)
      (by rw [hidle]; rfl) (by rw [hidle]; rfl) rfl rfl rfl rfl rfl

theorem Inv.start {op : Op} (h : Inv s) (hidle : s.pc t = .idle)
    (hproper : Proper s (.start t op)) : ∃ s', s.start t op = some s' ∧ Inv s' := by
  obtain ⟨hlive,hunused⟩ := hproper
  cases op with
  | make k v => exact ⟨_, rfl, h.make hidle (hunused v (by simp [Op.vars])) hlive k⟩
  | makeNull k v => exact ⟨_, rfl, h.makeNull hidle (hunused v (by simp [Op.vars])) hlive k⟩
  | construct k v source =>
    refine ⟨_, rfl, h.construct hidle (hunused v (by simp [Op.vars])) ?_ hlive.1 hlive.2 k⟩
    exact hunused source (by simp [Op.vars])
  | assignNull v =>
    obtain ⟨r,hr⟩ := Option.isSome_iff_exists.mp hlive
    refine ⟨_, by rw [State.start, hr]; rfl, ?_⟩
    exact h.release hidle (hunused v (by simp [Op.vars])) hr nofun
  | assign v source =>
    obtain ⟨r,hr⟩ := Option.isSome_iff_exists.mp hlive.1
    obtain ⟨r',hr'⟩ := Option.isSome_iff_exists.mp hlive.2
    by_cases hsame : r.middle = r'.middle
    · exact ⟨s, by simp only [State.start, hr, hr', if_pos hsame], h⟩
    · refine ⟨s.goto t (.removing v r.kind (.copy source)),
        by simp only [State.start, hr, hr', if_neg hsame], ?_⟩
      refine h.release hidle (hunused v (by simp [Op.vars])) hr fun x hx => ?_
      cases hx
      refine ⟨?_, hlive.2, hunused source (by simp [Op.vars])⟩
      -- a variable is not assigned to itself here: its pointer equals its own
      rintro rfl
      rw [hr] at hr'
      cases hr'
      exact hsame rfl
  | destroy v =>
    obtain ⟨r,hr⟩ := Option.isSome_iff_exists.mp hlive
    refine ⟨_, by rw [State.start, hr]; rfl, ?_⟩
    exact h.release hidle (hunused v (by simp [Op.vars])) hr nofun

theorem Inv.go (h : Inv s) (hbusy : s.pc t ≠ .idle) : ∃ s', step s (.go t) = some s' ∧ Inv s' := by
  cases hpc : s.pc t with
  | idle => exact absurd hpc hbusy
  | removing v k rest =>
    obtain ⟨s',hstep,hinv⟩ := h.remove hpc
    exact ⟨s', by simp only [step, hpc, hstep], hinv⟩
  | deleting v k delPtr deleteM rest =>
    obtain ⟨s',hstep,hinv⟩ := h.delete hpc
    exact ⟨s', by simp only [step, hpc, hstep], hinv⟩
  | ending v k rest =>
    obtain ⟨s',hstep,hinv⟩ := h.ending hpc
    exact ⟨s', by simp only [step, hpc, hstep], hinv⟩

theorem Inv.begins {op : Op} (h : Inv s) (hidle : s.pc t = .idle)
    (hproper : Proper s (.start t op)) : ∃ s', step s (.start t op) = some s' ∧ Inv s' := by
  obtain ⟨s',hstart,hinv⟩ := h.start hidle hproper
  exact ⟨s', by simp only [step, if_pos hidle, hstart], hinv⟩

omit [DecidableEq τ] in
theorem inv_start : Inv (start τ) := by
  have hheld (v : Var) : held (start τ) v = none := held_null rfl
  refine ⟨⟨?_, nofun, nofun⟩, fun m => ?_⟩
  · rintro t t' v (hu | hu)
    · cases hu
    · cases hu
  · have hrefs (k : Kind) : tally (held (start τ)) (k, m) = 0 :=
      tally_eq_zero.mpr fun v => by rw [hheld]; nofun
    have hdel : tally (Pc.delPtr ∘ (start τ).pc) m = 0 := tally_eq_zero.mpr nofun
    have hfree : tally (Pc.deleteM ∘ (start τ).pc) m = 0 := tally_eq_zero.mpr nofun
    exact ⟨fun k => (hrefs k).symm, nofun, nofun, hfree, rfl, Nat.zero_le _,
      fun _ => ⟨rfl, rfl, hdel, rfl⟩⟩

theorem invariant : ((machine τ).under Proper).Invariant Inv where
  init _ hi := hi ▸ inv_start
  step s s' h hs := by
    obtain ⟨a,hproper,hstep⟩ := hs
    change step s a = some s' at hstep
    cases a with
    | start t op =>
      have hidle : s.pc t = .idle := by
        by_contra hne
        rw [step, if_neg hne] at hstep
        cases hstep
      obtain ⟨s'',hstep',hinv⟩ := h.begins hidle hproper
      cases hstep.symm.trans hstep'
      exact hinv
    | go t =>
      have hbusy : s.pc t ≠ .idle := by
        intro hidle
        rw [step] at hstep
        simp only [hidle] at hstep
        cases hstep
      obtain ⟨s'',hstep',hinv⟩ := h.go hbusy
      cases hstep.symm.trans hstep'
      exact hinv

end Step

/-! What holds in every state that a run reaches. -/

/-- How far the operation of a thread is from its end, at most. -/
def Pc.rank : Pc → Nat
  | .idle => 0
  | .ending _ _ _ => 1
  | .deleting _ _ none _ _ => 2
  | .deleting _ _ (some _) _ _ => 3
  | .removing _ _ _ => 4

/-- The `Middle` that the next step of a thread reads or writes. -/
def State.touches (s : State τ) (t : τ) : Option Nat :=
  match s.pc t with
  | .removing v _ _ => (s.refs v).bind Ref.middle
  | .deleting _ _ none deleteM _ => deleteM
  | .ending _ _ (.copy source) => (s.refs source).bind Ref.middle
  | _ => none

/-- The object is deleted, or a thread has taken it from its `Middle` to delete it. -/
def State.Gone (s : State τ) (m : Nat) : Prop := m ∈ s.deleted ∨ ∃ t, (s.pc t).delPtr = some m

section Reached
variable {s s' : State τ} {t : τ} {v : Var} {k : Kind} {m : Nat}

theorem Inv.count_eq (h : Inv s) (m : Nat) (k : Kind) :
    count (s.middles m) k = {v | held s v = some (k, m)}.ncard := (h.balanced m).refs k

theorem Inv.object (h : Inv s) (m : Nat) :
    s.deleted.count m + {t | (s.pc t).delPtr = some m}.ncard =
      if m < s.made ∧ count (s.middles m) .strong = 0 then 1 else 0 := by
  by_cases hmade : m < s.made
  · rw [h.count_eq]
    simp only [hmade, true_and]
    exact (h.balanced m).deleted hmade
  · obtain ⟨-,hdeleted,hdeleting,-⟩ := (h.balanced m).fresh hmade
    rw [if_neg fun he => hmade he.1]
    change s.deleted.count m = 0 at hdeleted
    change {t | (s.pc t).delPtr = some m}.ncard = 0 at hdeleting
    rw [hdeleted, hdeleting]

section Threads
variable [Finite τ]

theorem Inv.gone_iff (h : Inv s) (m : Nat) :
    s.Gone m ↔ m < s.made ∧ count (s.middles m) .strong = 0 := by
  have hobject := h.object m
  have hpending : 0 < {t | (s.pc t).delPtr = some m}.ncard ↔ ∃ t, (s.pc t).delPtr = some m :=
    tally_pos
  rw [State.Gone, ← List.count_pos_iff, ← hpending]
  split at hobject
  · omega
  · omega

theorem Inv.alive (h : Inv s) (hv : held s v = some (.strong, m)) : ¬s.Gone m := by
  intro hgone
  have hpos : 0 < count (s.middles m) .strong := by
    rw [h.count_eq]
    exact refs_pos hv
  exact absurd ((h.gone_iff m).mp hgone).2 (Nat.ne_of_gt hpos)

theorem Inv.touched (h : Inv s) (hm : s.touches t = some m) : (s.middles m).isSome := by
  have hfound {k : Kind} {v : Var} (hv : held s v = some (k, m)) : (s.middles m).isSome := by
    obtain ⟨M,hM,-,-⟩ := (h.balanced m).middle (refs_pos hv)
    exact Option.isSome_iff_exists.mpr ⟨M, hM⟩
  rw [State.touches] at hm
  cases hpc : s.pc t with
  | idle =>
    simp only [hpc] at hm
    cases hm
  | removing v k rest =>
    simp only [hpc] at hm
    obtain ⟨middle,hr⟩ := h.removing t v k rest hpc
    rw [hr] at hm
    change middle = some m at hm
    exact hfound (h.held_removing hpc (hr.trans (by rw [hm])))
  | deleting v k delPtr deleteM rest =>
    cases delPtr with
    | some object =>
      simp only [hpc] at hm
      cases hm
    | none =>
      simp only [hpc] at hm
      exact (h.unreferenced (t := t) (m := m) (by rw [hpc]; exact hm)).1
  | ending v k rest =>
    cases rest with
    | null =>
      simp only [hpc] at hm
      cases hm
    | gone =>
      simp only [hpc] at hm
      cases hm
    | copy source =>
      simp only [hpc] at hm
      have hsource : (s.pc t).source = some source := by rw [hpc]; rfl
      obtain ⟨r,hr⟩ := Option.isSome_iff_exists.mp (h.source t source hsource).1
      rw [hr] at hm
      exact hfound (h.held_source hsource hr hm)

end Threads

variable [DecidableEq τ]

theorem goto_pc (s : State τ) (t : τ) (p : Pc) : (s.goto t p).pc t = p := update_self _ _ _

theorem remove_rank {rest : Ending} (h : s.remove t v k rest = some s') :
    (s'.pc t).rank < 4 := by
  rw [State.remove] at h
  split at h
  · cases h
    rw [goto_pc]
    exact Nat.one_lt_succ_succ 2
  · split at h
    · cases h
    · rename_i delPtr _ _
      cases h
      rw [goto_pc]
      cases delPtr with
      | none => exact Nat.lt_add_of_pos_right Nat.two_pos
      | some _ => exact Nat.lt_succ_self 3

theorem delete_rank {delPtr deleteM : Option Nat} {rest : Ending}
    (h : s.delete t v k rest delPtr deleteM = some s') :
    (s'.pc t).rank < (Pc.deleting v k delPtr deleteM rest).rank := by
  cases delPtr with
  | some object =>
    cases h
    rw [goto_pc]
    exact Nat.lt_succ_self 2
  | none =>
    cases deleteM with
    | some m =>
      obtain ⟨-,he⟩ := Option.ite_none_right_eq_some.mp h
      cases he
      rw [goto_pc]
      exact Nat.lt_succ_self 1
    | none =>
      cases h
      rw [goto_pc]
      exact Nat.lt_succ_self 1

theorem ending_rank {rest : Ending} (h : s.ending t v k rest = some s') :
    (s'.pc t).rank < 1 := by
  have hfinish (r : Option Ref) : ((s.finish t v r).pc t).rank < 1 := by
    rw [State.finish, goto_pc]
    exact Nat.one_pos
  cases rest with
  | null =>
    cases h
    exact hfinish _
  | gone =>
    cases h
    exact hfinish _
  | copy source =>
    simp only [State.ending] at h
    split at h
    · cases h
      exact hfinish _
    · split at h
      · cases h
      · rename_i m _ _ middle _
        cases h
        exact hfinish (some ⟨k, if (middle.add k).2 then some m else none⟩)

theorem rank_lt (h : step s (.go t) = some s') : (s'.pc t).rank < (s.pc t).rank := by
  rw [step] at h
  cases hpc : s.pc t with
  | idle =>
    simp only [hpc] at h
    cases h
  | removing v k rest =>
    simp only [hpc] at h
    exact remove_rank h
  | deleting v k delPtr deleteM rest =>
    simp only [hpc] at h
    exact delete_rank h
  | ending v k rest =>
    simp only [hpc] at h
    exact ending_rank h

structure Exact (s : State τ) : Prop where
  counts : ∀ m middle, s.middles m = some middle → ∀ k,
    middle.count k = {v | held s v = some (k, m)}.ncard
  object : ∀ m, s.deleted.count m + {t | (s.pc t).delPtr = some m}.ncard =
    if m < s.made ∧ count (s.middles m) .strong = 0 then 1 else 0
  middle : ∀ m, s.freed.count m + (if (s.middles m).isSome then 1 else 0) = s.wrapped.count m ∧
    s.wrapped.count m ≤ 1
  freeing : ∀ m, {t | (s.pc t).deleteM = some m}.ncard =
    if (s.middles m).isSome ∧ count (s.middles m) .strong = 0 ∧ count (s.middles m) .weak = 0
    then 1 else 0
  touched : ∀ t m, s.touches t = some m → (s.middles m).isSome
  begins : ∀ t op, s.pc t = .idle → Proper s (.start t op) → (step s (.start t op)).isSome
  goes : ∀ t, s.pc t ≠ .idle → ∃ s', step s (.go t) = some s' ∧ (s'.pc t).rank < (s.pc t).rank
  alive : ∀ v m, held s v = some (.strong, m) → ¬s.Gone m
  copies : ∀ t v k source k' m, s.pc t = .ending v k (.copy source) →
    s.refs source = some ⟨k', some m⟩ → ∃ s', step s (.go t) = some s' ∧
      (s.Gone m → s'.refs v = some ⟨k, none⟩) ∧ (¬s.Gone m → s'.refs v = some ⟨k, some m⟩)

variable [Finite τ]

/-- A copy is null where the object is gone, and points to its `Middle` where it is not. -/
theorem Inv.copies {source : Var} {k' : Kind} (h : Inv s)
    (hpc : s.pc t = .ending v k (.copy source)) (hr : s.refs source = some ⟨k', some m⟩) :
    ∃ s', step s (.go t) = some s' ∧ (s.Gone m → s'.refs v = some ⟨k, none⟩) ∧
      (¬s.Gone m → s'.refs v = some ⟨k, some m⟩) := by
  have hsource : (s.pc t).source = some source := by rw [hpc]; rfl
  obtain ⟨M,hM,hpoints,-⟩ := (h.balanced m).middle (refs_pos (h.held_source hsource hr rfl))
  change s.middles m = some M at hM
  have hgone : s.Gone m ↔ M.count .strong = 0 := by
    rw [h.gone_iff m, and_iff_right ((h.balanced m).was_made hM), hM]
    rfl
  have hbound : M.count k+1 < 2^64 := by
    rw [(h.balanced m).count_eq hM]
    exact refs_bound
  have hadded := (Middle.add_spec hpoints k hbound).1
  have hstep : step s (.go t) = s.ending t v k (.copy source) := by simp only [step, hpc]
  refine ⟨_, hstep.trans (copy_eq hr rfl hM), fun hg => ?_, fun hg => ?_⟩
  · change update s.refs v _ v = _
    rw [update_self, if_neg fun hadd => hadded.mp hadd (hgone.mp hg)]
  · change update s.refs v _ v = _
    rw [update_self, if_pos (hadded.mpr fun hzero => hg (hgone.mpr hzero))]

/-- The counts are exact in every state that the threads reach. -/
theorem references_counted (h : ((machine τ).under Proper).Reachable s) : Exact s := by
  have hinv : Inv s := invariant.reachable h
  refine ⟨fun m M hM k => ?_, hinv.object, fun m => ?_, fun m => ?_, fun t m => hinv.touched,
    fun t op hidle hproper => ?_, fun t hbusy => ?_, fun v m => hinv.alive,
    fun t v k source k' m => hinv.copies⟩
  · rw [← hinv.count_eq, hM]
    rfl
  · exact ⟨(hinv.balanced m).freed, (hinv.balanced m).once⟩
  · rw [hinv.count_eq, hinv.count_eq]
    exact (hinv.balanced m).freeing
  · obtain ⟨s',hs',-⟩ := hinv.begins hidle hproper
    exact Option.isSome_iff_exists.mpr ⟨s', hs'⟩
  · obtain ⟨s',hs',-⟩ := hinv.go hbusy
    exact ⟨s', hs', rank_lt hs'⟩

end Reached

/-- Two threads that drop the last strong and the last weak reference. -/
def drops : List (Action Bool) :=
  [.start false (.make .strong 0), .start false (.construct .weak 1 0), .go false,
    .start false (.destroy 0), .start true (.destroy 1), .go false, .go true]

theorem references_counted_drops : Exact ((machine Bool).run (start Bool) drops) ∧
    (((machine Bool).run (start Bool) drops).pc false).delPtr = some 0 ∧
    (((machine Bool).run (start Bool) drops).pc true).deleteM = some 0 := by
  refine ⟨references_counted (Machine.reachable_run (.init rfl) (by decide)), ?_, ?_⟩
  · decide
  · decide

end NetKernel.SharedRefs
