import NetKernel.Lib.StackCode

/-! Straight-line code in company: it runs as if alone while nobody else changes the cells it
has written or has yet to read. -/
namespace NetKernel.StackCode
open Function
variable {R : Type*} [DecidableEq R] {sp : R} {s t start : Cpu R} {i : Instr R}
  {code done rest : List (Instr R)} {keep : Nat → Prop}

def reads (sp : R) (s : Cpu R) : Instr R → Option Nat
  | .pop _ => some (s.reg sp)
  | .load _ base offset => some (s.reg base+offset)
  | _ => none

def writes (sp : R) (s : Cpu R) : Instr R → Option Nat
  | .push _ => some (s.reg sp-8)
  | .store base offset _ => some (s.reg base+offset)
  | _ => none

def allReads (sp : R) : Cpu R → List (Instr R) → List Nat
  | _, [] => []
  | s, i :: code => (reads sp s i).toList ++ allReads sp (step sp s i) code

def allWrites (sp : R) : Cpu R → List (Instr R) → List Nat
  | _, [] => []
  | s, i :: code => (writes sp s i).toList ++ allWrites sp (step sp s i) code

theorem allReads_append (s : Cpu R) (code code' : List (Instr R)) :
    allReads sp s (code ++ code') = allReads sp s code ++ allReads sp (run sp code s) code' := by
  induction code generalizing s with
  | nil => rfl
  | cons i code ih => rw [List.cons_append, allReads, allReads, ih, List.append_assoc, run_cons]

theorem allWrites_append (s : Cpu R) (code code' : List (Instr R)) :
    allWrites sp s (code ++ code') = allWrites sp s code ++ allWrites sp (run sp code s) code' := by
  induction code generalizing s with
  | nil => rfl
  | cons i code ih => rw [List.cons_append, allWrites, allWrites, ih, List.append_assoc, run_cons]

theorem step_frame {a : Nat} (ha : a ∉ writes sp s i) : (step sp s i).mem a = s.mem a := by
  cases i with
  | push | store => exact update_of_ne (fun h => ha (congrArg some h.symm)) _ _
  | mov | pop | load | add | clear => rfl

theorem run_frame {a : Nat} (ha : a ∉ allWrites sp s code) : (run sp code s).mem a = s.mem a := by
  induction code generalizing s with
  | nil => rfl
  | cons i code ih =>
    rw [allWrites, List.mem_append, not_or, Option.mem_toList] at ha
    rw [run_cons, ih ha.2, step_frame ha.1]

theorem update_agree {f g : Nat → Nat} {a b x : Nat} (h : f a = g a ∨ a ∈ some b) :
    update f b x a = update g b x a := by
  rw [update_apply, update_apply]
  split
  · rfl
  · exact h.resolve_right fun hb => absurd (Option.some.inj hb).symm ‹_›

theorem step_agree (hreg : s.reg = t.reg) (hread : ∀ a ∈ reads sp t i, s.mem a = t.mem a) :
    (step sp s i).reg = (step sp t i).reg ∧
      ∀ a, s.mem a = t.mem a ∨ a ∈ writes sp t i → (step sp s i).mem a = (step sp t i).mem a := by
  cases i with
  | mov | add | clear =>
    refine ⟨by simp only [step, Cpu.set, hreg], fun a ha => ?_⟩
    obtain ha | ha := ha
    · exact ha
    · cases ha
  | pop | load =>
    have hcell := hread _ rfl
    refine ⟨by simp only [step, Cpu.set, hreg, hcell], fun a ha => ?_⟩
    obtain ha | ha := ha
    · exact ha
    · cases ha
  | push src =>
    refine ⟨by simp only [step, Cpu.set, Cpu.write, hreg], fun a ha => ?_⟩
    change update s.mem (s.reg sp-8) (s.reg src) a = update t.mem (t.reg sp-8) (t.reg src) a
    rw [hreg]
    exact update_agree ha
  | store base offset src =>
    refine ⟨hreg, fun a ha => ?_⟩
    change update s.mem (s.reg base+offset) (s.reg src) a =
      update t.mem (t.reg base+offset) (t.reg src) a
    rw [hreg]
    exact update_agree ha

/-- `start` has run `done` alone; what runs in company has the same registers, and the same
memory where it has written, has yet to read, or must `keep` it. -/
structure Along (sp : R) (keep : Nat → Prop) (start : Cpu R) (done rest : List (Instr R))
    (s : Cpu R) : Prop where
  reg : s.reg = (run sp done start).reg
  mem : ∀ a, keep a ∨ a ∈ allWrites sp start done ∨ a ∈ allReads sp (run sp done start) rest →
    s.mem a = (run sp done start).mem a

theorem Along.refl : Along sp keep s [] code s := ⟨rfl, fun _ _ => rfl⟩

theorem Along.tick (h : Along sp keep start done (i :: rest) s) :
    Along sp keep start (done ++ [i]) rest (step sp s i) := by
  obtain ⟨hreg,hmem⟩ := step_agree h.reg fun a ha =>
    h.mem a (.inr (.inr (List.mem_append_left _ (Option.mem_toList.mpr ha))))
  have hrun : run sp (done ++ [i]) start = step sp (run sp done start) i := run_append ..
  refine ⟨by rw [hrun, hreg], fun a ha => ?_⟩
  rw [hrun] at ha ⊢
  rw [allWrites_append, List.mem_append] at ha
  obtain hk | (hw | hw) | hr := ha
  · exact hmem a (.inl (h.mem a (.inl hk)))
  · exact hmem a (.inl (h.mem a (.inr (.inl hw))))
  · rw [allWrites, allWrites, List.append_nil, Option.mem_toList] at hw
    exact hmem a (.inr hw)
  · exact hmem a (.inl (h.mem a (.inr (.inr (List.mem_append_right _ hr)))))

theorem Along.mem_allWrites (h : Along sp keep start done (i :: rest) s) {a : Nat}
    (ha : a ∈ writes sp s i) : a ∈ allWrites sp start (done ++ i :: rest) := by
  have hsame : writes sp s i = writes sp (run sp done start) i := by
    cases i <;> simp only [writes, h.reg]
  rw [allWrites_append]
  exact List.mem_append_right _ (List.mem_append_left _ (Option.mem_toList.mpr (hsame ▸ ha)))

theorem Along.congr (h : Along sp keep start done rest s) (hreg : t.reg = s.reg)
    (hmem : ∀ a, keep a ∨ a ∈ allWrites sp start done ∨
      a ∈ allReads sp (run sp done start) rest → t.mem a = s.mem a) :
    Along sp keep start done rest t :=
  ⟨hreg.trans h.reg, fun a ha => (hmem a ha).trans (h.mem a ha)⟩

/-! Code that pushes only, and code that pops only. -/

def Instr.pushing (sp : R) : Instr R → Bool
  | .push _ => true
  | .mov dst _ | .clear dst _ => dst ≠ sp
  | _ => false

def Instr.popping (sp : R) : Instr R → Bool
  | .pop dst | .mov dst _ => dst ≠ sp
  | _ => false

def Instr.isPush : Instr R → Bool
  | .push _ => true
  | _ => false

def Instr.isPop : Instr R → Bool
  | .pop _ => true
  | _ => false

theorem run_pushing (h : ∀ i ∈ code, i.pushing sp) (hroom : 8*code.countP Instr.isPush ≤ s.reg sp) :
    (run sp code s).reg sp+8*code.countP Instr.isPush = s.reg sp ∧ allReads sp s code = [] ∧
      ∀ a ∈ allWrites sp s code, (run sp code s).reg sp ≤ a ∧ a < s.reg sp := by
  induction code generalizing s with
  | nil => exact ⟨rfl, rfl, fun _ ha => absurd ha List.not_mem_nil⟩
  | cons i code ih =>
    obtain ⟨hi,hcode⟩ := List.forall_mem_cons.mp h
    rw [List.countP_cons] at hroom ⊢
    rw [run_cons, allReads, allWrites]
    cases i with
    | push r =>
      have htop : (step sp s (.push r)).reg sp = s.reg sp-8 := update_self ..
      simp only [Instr.isPush, if_true] at hroom ⊢
      obtain ⟨hsp,hr,hw⟩ := ih hcode (s := step sp s (.push r)) (by omega)
      rw [htop] at hsp hw
      refine ⟨by omega, hr, fun a ha => ?_⟩
      obtain ha | ha := List.mem_append.mp ha
      · obtain rfl : a = s.reg sp-8 := List.mem_singleton.mp ha
        omega
      · have := hw a ha
        omega
    | mov dst src =>
      have hne : sp ≠ dst := fun hd => by simp [Instr.pushing, hd] at hi
      have htop : (step sp s (.mov dst src)).reg sp = s.reg sp := update_of_ne hne _ _
      have := ih hcode (s := step sp s (.mov dst src))
      rw [htop] at this
      exact this hroom
    | clear dst mask =>
      have hne : sp ≠ dst := fun hd => by simp [Instr.pushing, hd] at hi
      have htop : (step sp s (.clear dst mask)).reg sp = s.reg sp := update_of_ne hne _ _
      have := ih hcode (s := step sp s (.clear dst mask))
      rw [htop] at this
      exact this hroom
    | pop | load | store | add => simp [Instr.pushing] at hi

theorem mem_allWrites_pushing (h : ∀ i ∈ code, i.pushing sp) {k : Nat}
    (hk : k < code.countP Instr.isPush) : s.reg sp-8*(k+1) ∈ allWrites sp s code := by
  induction code generalizing s k with
  | nil => cases hk
  | cons i code ih =>
    obtain ⟨hi,hcode⟩ := List.forall_mem_cons.mp h
    rw [List.countP_cons] at hk
    refine List.mem_append.mpr ?_
    cases i with
    | push r =>
      have htop : (step sp s (.push r)).reg sp = s.reg sp-8 := update_self ..
      cases k with
      | zero => exact .inl (List.mem_singleton.mpr rfl)
      | succ k =>
        have := ih hcode (s := step sp s (.push r)) (k := k) (by simpa [Instr.isPush] using hk)
        rw [htop, Nat.sub_sub, Nat.add_comm 8] at this
        exact .inr this
    | mov dst src =>
      have hne : sp ≠ dst := fun hd => by simp [Instr.pushing, hd] at hi
      have htop : (step sp s (.mov dst src)).reg sp = s.reg sp := update_of_ne hne _ _
      exact .inr (htop ▸ ih hcode hk)
    | clear dst mask =>
      have hne : sp ≠ dst := fun hd => by simp [Instr.pushing, hd] at hi
      have htop : (step sp s (.clear dst mask)).reg sp = s.reg sp := update_of_ne hne _ _
      exact .inr (htop ▸ ih hcode hk)
    | pop | load | store | add => simp [Instr.pushing] at hi

theorem run_popping (h : ∀ i ∈ code, i.popping sp) :
    (run sp code s).reg sp = s.reg sp+8*code.countP Instr.isPop ∧ allWrites sp s code = [] ∧
      ∀ a ∈ allReads sp s code, s.reg sp ≤ a ∧ a < s.reg sp+8*code.countP Instr.isPop := by
  induction code generalizing s with
  | nil => exact ⟨rfl, rfl, fun _ ha => absurd ha List.not_mem_nil⟩
  | cons i code ih =>
    obtain ⟨hi,hcode⟩ := List.forall_mem_cons.mp h
    rw [List.countP_cons, run_cons, allReads, allWrites]
    cases i with
    | pop dst =>
      have hne : sp ≠ dst := fun hd => by simp [Instr.popping, hd] at hi
      have htop : (step sp s (.pop dst)).reg sp = s.reg sp+8 := by
        change update (update s.reg sp _) dst _ sp = _
        rw [update_of_ne hne, update_self]
      obtain ⟨hsp,hw,hr⟩ := ih hcode (s := step sp s (.pop dst))
      rw [htop] at hsp hr
      simp only [Instr.isPop, if_true]
      refine ⟨by omega, hw, fun a ha => ?_⟩
      obtain ha | ha := List.mem_append.mp ha
      · obtain rfl : a = s.reg sp := List.mem_singleton.mp ha
        omega
      · have := hr a ha
        omega
    | mov dst src =>
      have hne : sp ≠ dst := fun hd => by simp [Instr.popping, hd] at hi
      have htop : (step sp s (.mov dst src)).reg sp = s.reg sp := update_of_ne hne _ _
      have := ih hcode (s := step sp s (.mov dst src))
      rwa [htop] at this
    | push | load | store | add | clear => simp [Instr.popping] at hi

end NetKernel.StackCode
