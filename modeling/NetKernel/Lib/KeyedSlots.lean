import Mathlib.Data.List.Nodup

/-! A table of slots, each free or with a key. The entry of a key is in the first slot
that has the key. -/
namespace NetKernel.KeyedSlots
variable {ε κ : Type*} [DecidableEq κ]

def keys (key : ε → Option κ) (slots : List ε) : List κ := slots.filterMap key

def entry (key : ε → Option κ) (slots : List ε) (k : κ) : Option ε :=
  slots.find? fun e => key e == some k

variable {key : ε → Option κ} {slots pre post : List ε} {e old : ε} {k k' : κ} {i : Nat}

omit [DecidableEq κ] in
theorem mem_keys : k ∈ keys key slots ↔ ∃ e ∈ slots, key e = some k := List.mem_filterMap

theorem entry_eq_none : entry key slots k = none ↔ k ∉ keys key slots := by
  simp [entry, mem_keys]

theorem entry_eq_some (hn : (keys key slots).Nodup) :
    entry key slots k = some e ↔ e ∈ slots ∧ key e = some k := by
  induction slots with
  | nil => simp [entry]
  | cons a slots ih =>
    have hrest : (keys key slots).Nodup := hn.sublist ((List.sublist_cons_self a slots).filterMap key)
    rw [entry, List.find?_cons]
    by_cases ha : key a = some k
    · have hnot : k ∉ keys key slots := by
        rw [keys, List.filterMap_cons_some ha] at hn
        exact (List.nodup_cons.mp hn).1
      simp only [ha, BEq.rfl, Option.some.injEq, List.mem_cons]
      constructor
      · rintro rfl
        exact ⟨Or.inl rfl, ha⟩
      · rintro ⟨rfl | he, hk⟩
        · rfl
        · exact absurd (mem_keys.mpr ⟨e, he, hk⟩) hnot
    · have hb : (key a == some k) = false := beq_eq_false_iff_ne.mpr ha
      simp only [hb, List.mem_cons]
      refine (ih hrest).trans (and_congr_left fun hk => ?_)
      refine (or_iff_right ?_).symm
      rintro rfl
      exact ha hk

omit [DecidableEq κ] in
theorem keys_split :
    keys key (pre ++ e :: post) = keys key pre ++ ((key e).toList ++ keys key post) := by
  rw [keys, List.filterMap_append, List.filterMap_cons]
  cases key e <;> rfl

theorem replace (hn : (keys key (pre ++ old :: post)).Nodup) (he : key e = some k)
    (ho : key old = some k ∨ key old = none ∧ k ∉ keys key (pre ++ old :: post)) :
    (keys key (pre ++ e :: post)).Nodup ∧ ∀ k', entry key (pre ++ e :: post) k' =
      if k' = k then some e else entry key (pre ++ old :: post) k' := by
  have hnodup : (keys key (pre ++ e :: post)).Nodup := by
    rw [keys_split, he]
    obtain ho | ⟨ho,hk⟩ := ho
    · rwa [keys_split, ho] at hn
    · rw [keys_split, ho, Option.toList_none, List.nil_append] at hn hk
      change (keys key pre ++ k :: keys key post).Nodup
      exact List.perm_middle.nodup_iff.mpr (List.nodup_cons.mpr ⟨hk,hn⟩)
  refine ⟨hnodup, fun k' => Option.ext fun x => ?_⟩
  rw [entry_eq_some hnodup]
  by_cases hkk : k' = k
  · subst hkk
    rw [if_pos rfl, ← entry_eq_some hnodup, (entry_eq_some hnodup).mpr ⟨by simp, he⟩]
  · rw [if_neg hkk, entry_eq_some hn]
    refine and_congr_left fun hx => ?_
    have hne : x ≠ e := by
      rintro rfl
      exact hkk (Option.some.inj (hx.symm.trans he))
    have hold : x ≠ old := by
      rintro rfl
      obtain ho | ⟨ho,-⟩ := ho
      · exact hkk (Option.some.inj (hx.symm.trans ho))
      · rw [ho] at hx
        cases hx
    simp [hne, hold]

theorem replace_at (hn : (keys key slots).Nodup) (hi : i < slots.length) (he : key e = some k)
    (ho : key slots[i] = some k ∨ key slots[i] = none ∧ k ∉ keys key slots) :
    (keys key (slots.set i e)).Nodup ∧
      ∀ k', entry key (slots.set i e) k' = if k' = k then some e else entry key slots k' := by
  have hsplit : slots = slots.take i ++ slots[i] :: slots.drop (i+1) := by
    rw [List.getElem_cons_drop, List.take_append_drop]
  have hset : slots.set i e = slots.take i ++ e :: slots.drop (i+1) := by
    rw [List.set_eq_take_append_cons_drop, if_pos hi]
  rw [hset]
  rw [hsplit] at hn
  have hall := replace hn he (ho.imp_right fun h => ⟨h.1, hsplit ▸ h.2⟩)
  rwa [← hsplit] at hall

omit [DecidableEq κ] in
/-- There is a free slot exactly when there are fewer keys than slots. -/
theorem exists_free : (∃ e ∈ slots, key e = none) ↔ (keys key slots).length < slots.length := by
  rw [keys, List.length_filterMap_lt_length_iff_exists]
  simp only [exists_prop]

end NetKernel.KeyedSlots
