import NetKernel.Memory.RefOperations

/-! What the counts of a `Middle` are: the variables that point to it. Every object has an
account of them, of the deletions under way and of those done; each step keeps it balanced. -/
namespace NetKernel.SharedRefs
open Function Runs Tally

/-! The sections, by the counts. -/

def Middle.count (m : Middle) : Kind → Nat
  | .strong => m.strongCount.toNat
  | .weak => m.weakCount.toNat

/-- `ptr` is the object until the last strong reference is given up. -/
def Middle.Points (m : Middle) (object : Nat) : Prop :=
  m.ptr = if m.count .strong = 0 then none else some object

theorem toNat_pos {x : UInt64} : 0 < x ↔ 0 < x.toNat := UInt64.lt_iff_toNat_lt

theorem toNat_sub_one {x : UInt64} (h : 0 < x.toNat) : (x-1).toNat+1 = x.toNat := by
  have hle : (1 : UInt64) ≤ x := UInt64.le_iff_toNat_le.mpr h
  rw [UInt64.toNat_sub_of_le _ _ hle]
  exact Nat.succ_pred_eq_of_pos h

theorem toNat_add_one {x : UInt64} (h : x.toNat+1 < 2^64) : (x+1).toNat = x.toNat+1 := by
  rw [UInt64.toNat_add]
  exact Nat.mod_eq_of_lt h

theorem eq_zero_iff {x : UInt64} : x = 0 ↔ x.toNat = 0 := UInt64.toNat_inj.symm

theorem Middle.add_spec {m : Middle} {object : Nat} (hp : m.Points object) (k : Kind)
    (hk : m.count k+1 < 2^64) : ((m.add k).2 = true ↔ m.count .strong ≠ 0) ∧
      (m.add k).1.Points object ∧ ∀ k', (m.add k).1.count k' =
        m.count k' + if k' = k ∧ m.count .strong ≠ 0 then 1 else 0 := by
  cases k with
  | strong =>
    by_cases h : 0 < m.strongCount
    · have hpos : m.count .strong ≠ 0 := Nat.ne_of_gt (toNat_pos.mp h)
      have hone : (m.strongCount+1).toNat = m.strongCount.toNat+1 := toNat_add_one hk
      have hadd : m.add .strong = ({ m with strongCount := m.strongCount+1 }, true) := if_pos h
      rw [hadd]
      refine ⟨iff_of_true rfl hpos, ?_, fun k' => ?_⟩
      · rw [Middle.Points, if_neg hpos] at hp
        rw [Middle.Points, if_neg (by change (m.strongCount+1).toNat ≠ 0; omega)]
        exact hp
      · cases k' with
        | strong => rw [if_pos ⟨rfl, hpos⟩]; exact hone
        | weak => rw [if_neg fun h => nomatch h.1]; rfl
    · have hzero : m.count .strong = 0 := Nat.eq_zero_of_not_pos fun hc => h (toNat_pos.mpr hc)
      have hadd : m.add .strong = (m, false) := if_neg h
      rw [hadd]
      exact ⟨iff_of_false nofun (not_not.mpr hzero), hp, fun k' => by
        rw [if_neg fun h => h.2 hzero, Nat.add_zero]⟩
  | weak =>
    by_cases h : m.count .strong = 0
    · rw [Middle.Points, if_pos h] at hp
      have hadd : m.add .weak = (m, false) := if_pos hp
      rw [hadd]
      refine ⟨iff_of_false nofun (not_not.mpr h), ?_, fun k' => ?_⟩
      · rw [Middle.Points, if_pos h, hp]
      · rw [if_neg fun hk => hk.2 h, Nat.add_zero]
    · have hptr := hp
      rw [Middle.Points, if_neg h] at hptr
      have hone : (m.weakCount+1).toNat = m.weakCount.toNat+1 := toNat_add_one hk
      have hadd : m.add .weak = ({ m with weakCount := m.weakCount+1 }, true) :=
        if_neg (hptr ▸ nofun)
      rw [hadd]
      refine ⟨iff_of_true rfl h, hp, fun k' => ?_⟩
      cases k' with
      | strong => rw [if_neg fun h => nomatch h.1]; rfl
      | weak => rw [if_pos ⟨rfl, h⟩]; exact hone

/-- A `remove` takes one, hands over the object with the last strong reference, and decides
for the `Middle` with the last of both. -/
theorem Middle.remove_spec {m : Middle} {object : Nat} (hp : m.Points object) {k : Kind}
    (hk : 0 < m.count k) : ∃ m' delPtr deleteM, m.remove k = some (m', delPtr, deleteM) ∧
      m'.Points object ∧ (∀ k', m'.count k' + (if k' = k then 1 else 0) = m.count k') ∧
      delPtr = (if k = .strong ∧ m'.count .strong = 0 then some object else none) ∧
      (deleteM = true ↔ m'.count .strong = 0 ∧ m'.count .weak = 0) := by
  cases k with
  | strong =>
    have hpos : 0 < m.strongCount := toNat_pos.mpr hk
    have hone : (m.strongCount-1).toNat+1 = m.strongCount.toNat := toNat_sub_one hk
    have hptr : m.ptr = some object := hp.trans (if_neg (Nat.ne_of_gt hk))
    by_cases hlast : m.strongCount-1 = 0
    · have hzero : (m.strongCount-1).toNat = 0 := eq_zero_iff.mp hlast
      refine ⟨⟨none, m.strongCount-1, m.weakCount⟩, m.ptr, m.weakCount == 0, ?_, ?_, fun k' => ?_,
        ?_, ?_⟩
      · simp only [Middle.remove, Middle.removeStrong, if_pos hpos, if_pos hlast]
      · exact (if_pos hzero).symm
      · cases k' with
        | strong => exact hone
        | weak => rfl
      · rw [hptr, if_pos ⟨rfl, hzero⟩]
      · rw [beq_iff_eq, eq_zero_iff]
        exact (and_iff_right hzero).symm
    · have hne : (m.strongCount-1).toNat ≠ 0 := fun h => hlast (eq_zero_iff.mpr h)
      refine ⟨⟨m.ptr, m.strongCount-1, m.weakCount⟩, none, false, ?_, ?_, fun k' => ?_, ?_, ?_⟩
      · simp only [Middle.remove, Middle.removeStrong, if_pos hpos, if_neg hlast]
      · exact hptr.trans (if_neg hne).symm
      · cases k' with
        | strong => exact hone
        | weak => rfl
      · exact (if_neg fun h => hne h.2).symm
      · exact iff_of_false nofun fun h => hne h.1
  | weak =>
    have hpos : 0 < m.weakCount := toNat_pos.mpr hk
    have hone : (m.weakCount-1).toNat+1 = m.weakCount.toNat := toNat_sub_one hk
    refine ⟨⟨m.ptr, m.strongCount, m.weakCount-1⟩, none,
      m.weakCount-1 == 0 && m.strongCount == 0, ?_, hp, fun k' => ?_, ?_, ?_⟩
    · simp only [Middle.remove, Middle.removeWeak, if_pos hpos]
    · cases k' with
      | strong => rfl
      | weak => exact hone
    · exact (if_neg fun h => nomatch h.1).symm
    · rw [Bool.and_eq_true, beq_iff_eq, beq_iff_eq, eq_zero_iff, eq_zero_iff]
      exact and_comm

/-! Accounts. -/

/-- What there is to an object and its `Middle`: the `Middle`, the variables that point to
it, the threads about to delete the object and the `Middle`, and how often each deletion,
and the construction of the `Middle`, has taken place. -/
structure Account where
  middle : Option Middle
  refs : Kind → Nat
  deleting : Nat
  freeing : Nat
  deleted : Nat
  freed : Nat
  wrapped : Nat

/-- The counts of a `Middle`; zero for one that is not there. -/
def count (middle : Option Middle) (k : Kind) : Nat := middle.elim 0 (Middle.count · k)

structure Account.Balanced (a : Account) (object : Nat) (made : Prop) : Prop where
  refs : ∀ k, count a.middle k = a.refs k
  points : ∀ m, a.middle = some m → m.Points object
  deleted : made → a.deleted+a.deleting = if a.refs .strong = 0 then 1 else 0
  freeing : a.freeing = if a.middle.isSome ∧ a.refs .strong = 0 ∧ a.refs .weak = 0 then 1 else 0
  freed : a.freed + (if a.middle.isSome then 1 else 0) = a.wrapped
  once : a.wrapped ≤ 1
  fresh : ¬made → a.middle = none ∧ a.deleted = 0 ∧ a.deleting = 0 ∧ a.wrapped = 0

variable {a b : Account} {object : Nat} {made : Prop} {k : Kind}

theorem Account.Balanced.count_eq {m : Middle} (h : a.Balanced object made)
    (hm : a.middle = some m) (k : Kind) : m.count k = a.refs k := by
  rw [← h.refs k, hm]
  rfl

theorem Account.Balanced.was_made {m : Middle} (h : a.Balanced object made)
    (hm : a.middle = some m) : made := by
  by_contra hmade
  cases (h.fresh hmade).1.symm.trans hm

theorem Account.Balanced.middle (h : a.Balanced object made) (hk : 0 < a.refs k) :
    ∃ m, a.middle = some m ∧ m.Points object ∧ 0 < m.count k := by
  cases hm : a.middle with
  | none =>
    have hcount := h.refs k
    rw [hm] at hcount
    exact absurd hcount.symm (Nat.ne_of_gt hk)
  | some m => exact ⟨m, rfl, h.points m hm, Nat.lt_of_lt_of_eq hk (h.count_eq hm k).symm⟩

theorem Account.Balanced.remove {m m' : Middle} {delPtr : Option Nat} {deleteM : Bool}
    (h : a.Balanced object made) (hm : a.middle = some m) (hk : 0 < a.refs k)
    (hrem : m.remove k = some (m', delPtr, deleteM)) (hmiddle : b.middle = some m')
    (hrefs : ∀ k', b.refs k' + (if k' = k then 1 else 0) = a.refs k')
    (hdel : b.deleting = a.deleting + if delPtr = some object then 1 else 0)
    (hfree : b.freeing = a.freeing + if deleteM then 1 else 0) (hdeleted : b.deleted = a.deleted)
    (hfreed : b.freed = a.freed) (hwrapped : b.wrapped = a.wrapped) : b.Balanced object made := by
  have hcount := h.count_eq hm
  obtain ⟨m'',delPtr',deleteM',hrem',hpoints,hdec,hptr,hlast⟩ :=
    Middle.remove_spec (h.points m hm) (hcount k ▸ hk)
  cases hrem.symm.trans hrem'
  have hcount' (k' : Kind) : m'.count k' = b.refs k' := by
    have h1 := hdec k'
    have h2 := hrefs k'
    rw [hcount] at h1
    omega
  have hmade := h.was_made hm
  have hdeleted' := h.deleted hmade
  have hfreeing := h.freeing
  have hfreed' := h.freed
  have hstrong := hrefs .strong
  have hweak := hrefs .weak
  rw [hcount', hcount'] at hlast
  rw [hcount'] at hptr
  simp only [hm, Option.isSome_some, true_and, if_true] at hfreeing hfreed'
  refine ⟨fun k' => ?_, fun m'' hm'' => ?_, fun _ => ?_, ?_, ?_, hwrapped ▸ h.once, fun hno => ?_⟩
  · rw [hmiddle]
    exact hcount' k'
  · rw [hmiddle] at hm''
    cases hm''
    exact hpoints
  · have hlastRef : (if delPtr = some object then 1 else 0) =
        if k = .strong ∧ b.refs .strong = 0 then 1 else 0 := by
      rw [hptr]
      split
      · exact if_pos rfl
      · exact if_neg nofun
    rw [hdeleted, hdel, hlastRef]
    cases k with
    | strong =>
      rw [if_pos rfl] at hstrong
      rw [if_neg (by omega)] at hdeleted'
      simp only [true_and]
      omega
    | weak =>
      have hsame : b.refs .strong = a.refs .strong := hstrong
      rw [if_neg (fun h => nomatch h.1), hsame]
      exact hdeleted'
  · have hbusy : ¬(a.refs .strong = 0 ∧ a.refs .weak = 0) := by
      rintro ⟨hs,hw⟩
      cases k with
      | strong => omega
      | weak => omega
    rw [if_neg hbusy] at hfreeing
    rw [hmiddle, hfree, hfreeing, Nat.zero_add]
    simp only [hlast, Option.isSome_some, true_and]
  · rw [hmiddle, hfreed, hwrapped]
    exact hfreed'
  · exact absurd hmade hno

theorem Account.Balanced.add {m : Middle} (h : a.Balanced object made) (hm : a.middle = some m)
    (hk : a.refs k+1 < 2^64) (hmiddle : b.middle = some (m.add k).1)
    (hrefs : ∀ k', b.refs k' = a.refs k' + if k' = k ∧ (m.add k).2 = true then 1 else 0)
    (hdel : b.deleting = a.deleting) (hfree : b.freeing = a.freeing)
    (hdeleted : b.deleted = a.deleted) (hfreed : b.freed = a.freed)
    (hwrapped : b.wrapped = a.wrapped) : b.Balanced object made := by
  have hcount := h.count_eq hm
  obtain ⟨hadded,hpoints,hcount'⟩ := Middle.add_spec (h.points m hm) k (by rw [hcount]; exact hk)
  have hadd (k' : Kind) : b.refs k' = a.refs k' + if k' = k ∧ a.refs .strong ≠ 0 then 1 else 0 := by
    simp only [hrefs, hadded, hcount]
  have hmade := h.was_made hm
  have hgone : b.refs .strong = 0 ↔ a.refs .strong = 0 := by
    have := hadd .strong
    split at this <;> omega
  have hboth : b.refs .strong = 0 ∧ b.refs .weak = 0 ↔ a.refs .strong = 0 ∧ a.refs .weak = 0 := by
    have := hadd .weak
    split at this
    · omega
    · omega
  have hdeleted' := h.deleted hmade
  have hfreeing := h.freeing
  have hfreed' := h.freed
  simp only [hm, Option.isSome_some, true_and] at hfreeing hfreed'
  refine ⟨fun k' => ?_, fun m' hm' => ?_, fun _ => ?_, ?_, ?_, hwrapped ▸ h.once, fun hno => ?_⟩
  · rw [hmiddle, hadd, ← hcount, ← hcount]
    exact hcount' k'
  · rw [hmiddle] at hm'
    cases hm'
    exact hpoints
  · rw [hdeleted, hdel, hdeleted']
    simp only [hgone]
  · rw [hmiddle, hfree, hfreeing]
    simp only [hboth, Option.isSome_some, true_and]
  · rw [hmiddle, hfreed, hwrapped]
    exact hfreed'
  · exact absurd hmade hno

theorem Account.Balanced.delete (h : a.Balanced object made) (hmiddle : b.middle = a.middle)
    (hrefs : b.refs = a.refs) (hdel : b.deleting+1 = a.deleting) (hfree : b.freeing = a.freeing)
    (hdeleted : b.deleted = a.deleted+1) (hfreed : b.freed = a.freed)
    (hwrapped : b.wrapped = a.wrapped) : b.Balanced object made := by
  have hmade : made := by
    by_contra hmade
    have := (h.fresh hmade).2.2.1
    omega
  refine ⟨?_, ?_, fun _ => ?_, ?_, ?_, hwrapped ▸ h.once, fun hno => absurd hmade hno⟩
  · rw [hmiddle, hrefs]
    exact h.refs
  · rw [hmiddle]
    exact h.points
  · rw [hrefs, ← h.deleted hmade]
    omega
  · rw [hmiddle, hrefs, hfree]
    exact h.freeing
  · rw [hmiddle, hfreed, hwrapped]
    exact h.freed

theorem Account.Balanced.unreferenced (h : a.Balanced object made) (hfree : 0 < a.freeing) :
    a.freeing = 1 ∧ a.middle.isSome ∧ a.refs .strong = 0 ∧ a.refs .weak = 0 := by
  have hfreeing := h.freeing
  split at hfreeing
  · exact ⟨hfreeing, ‹_›⟩
  · omega

theorem Account.Balanced.free (h : a.Balanced object made) (hmiddle : b.middle = none)
    (hrefs : b.refs = a.refs) (hdel : b.deleting = a.deleting) (hfree : b.freeing+1 = a.freeing)
    (hdeleted : b.deleted = a.deleted) (hfreed : b.freed = a.freed+1)
    (hwrapped : b.wrapped = a.wrapped) : b.Balanced object made := by
  obtain ⟨hone,hsome,hs,hw⟩ := h.unreferenced (by omega)
  have hfreed' := h.freed
  rw [if_pos hsome] at hfreed'
  have hmade : made := h.was_made (Option.some_get hsome).symm
  refine ⟨fun k => ?_, fun m hm => ?_, fun _ => ?_, ?_, ?_, hwrapped ▸ h.once,
    fun hno => absurd hmade hno⟩
  · rw [hmiddle, hrefs]
    cases k with
    | strong => exact hs.symm
    | weak => exact hw.symm
  · rw [hmiddle] at hm
    cases hm
  · rw [hrefs, hdeleted, hdel]
    exact h.deleted hmade
  · rw [hmiddle, if_neg fun h => nomatch h.1]
    omega
  · rw [hmiddle, hfreed, hwrapped, ← hfreed']
    rfl

theorem Account.Balanced.unmade (h : a.Balanced object made) (hmade : ¬made) :
    a.middle = none ∧ (∀ k, a.refs k = 0) ∧ a.deleting = 0 ∧ a.freeing = 0 ∧ a.deleted = 0 ∧
      a.freed = 0 ∧ a.wrapped = 0 := by
  obtain ⟨hm,hd,hdel,hw⟩ := h.fresh hmade
  have hfreeing := h.freeing
  have hfreed := h.freed
  rw [hm, if_neg fun h => nomatch h.1] at hfreeing
  rw [hm, hw] at hfreed
  refine ⟨hm, fun k => ?_, hdel, hfreeing, hd, hfreed, hw⟩
  rw [← h.refs k, hm]
  rfl

theorem Account.Balanced.wrap (h : a.Balanced object made) (hmade : ¬made) {made' : Prop}
    (hmade' : made') (hmiddle : b.middle = some (Middle.new object))
    (hrefs : ∀ k, b.refs k = a.refs k + if k = .strong then 1 else 0)
    (hdel : b.deleting = a.deleting) (hfree : b.freeing = a.freeing)
    (hdeleted : b.deleted = a.deleted) (hfreed : b.freed = a.freed)
    (hwrapped : b.wrapped = a.wrapped+1) : b.Balanced object made' := by
  obtain ⟨-,ha,hdel',hfree',hdeleted',hfreed',hwrapped'⟩ := h.unmade hmade
  have hs : b.refs .strong = 1 := by rw [hrefs, ha]; rfl
  refine ⟨fun k => ?_, fun m hm => ?_, fun _ => ?_, ?_, ?_, by omega, fun hno => absurd hmade' hno⟩
  · rw [hmiddle, hrefs, ha]
    cases k with
    | strong => rfl
    | weak => rfl
  · rw [hmiddle] at hm
    cases hm
    rfl
  · rw [hs, if_neg Nat.one_ne_zero]
    omega
  · rw [hs, if_neg fun h => absurd h.2.1 Nat.one_ne_zero]
    omega
  · rw [hmiddle, hfreed, hfreed', hwrapped, hwrapped']
    rfl

theorem Account.Balanced.discard (h : a.Balanced object made) (hmade : ¬made) {made' : Prop}
    (hmade' : made') (hmiddle : b.middle = a.middle) (hrefs : b.refs = a.refs)
    (hdel : b.deleting = a.deleting) (hfree : b.freeing = a.freeing)
    (hdeleted : b.deleted = a.deleted+1) (hfreed : b.freed = a.freed)
    (hwrapped : b.wrapped = a.wrapped) : b.Balanced object made' := by
  obtain ⟨hm,ha,hdel',hfree',hdeleted',hfreed',hwrapped'⟩ := h.unmade hmade
  refine ⟨?_, ?_, fun _ => ?_, ?_, ?_, by omega, fun hno => absurd hmade' hno⟩
  · rw [hmiddle, hrefs]
    exact h.refs
  · rw [hmiddle]
    exact h.points
  · rw [hrefs, ha, if_pos rfl]
    omega
  · rw [hmiddle, hrefs, hfree]
    exact h.freeing
  · rw [hmiddle, hfreed, hwrapped]
    exact h.freed

end NetKernel.SharedRefs
