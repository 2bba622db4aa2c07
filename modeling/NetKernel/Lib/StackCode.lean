import Mathlib.Data.List.Nodup
import Mathlib.Logic.Function.Basic

/-! Straight-line code over registers and a stack that grows down in cells of eight bytes:
what a run of pushes leaves in memory and what a run of pops takes from it. -/
namespace NetKernel.StackCode
open Function
variable {R : Type*}

/-- `mem` has a cell at every address it is used at; cells in use do not overlap. -/
structure Cpu (R : Type*) where
  reg : R → Nat
  mem : Nat → Nat

inductive Instr (R : Type*) where
  | mov (dst src : R)
  | push (src : R)
  | pop (dst : R)
  | store (base : R) (offset : Nat) (src : R)
  | load (dst base : R) (offset : Nat)
  | add (dst : R) (n : Nat)
  | clear (dst : R) (mask : Nat)
deriving DecidableEq, Repr

variable [DecidableEq R]

def Cpu.set (s : Cpu R) (r : R) (x : Nat) : Cpu R := { s with reg := update s.reg r x }

def Cpu.write (s : Cpu R) (a x : Nat) : Cpu R := { s with mem := update s.mem a x }

variable (sp : R)

def step (s : Cpu R) : Instr R → Cpu R
  | .mov dst src => s.set dst (s.reg src)
  | .push src => (s.write (s.reg sp-8) (s.reg src)).set sp (s.reg sp-8)
  | .pop dst => (s.set sp (s.reg sp+8)).set dst (s.mem (s.reg sp))
  | .store base offset src => s.write (s.reg base+offset) (s.reg src)
  | .load dst base offset => s.set dst (s.mem (s.reg base+offset))
  | .add dst n => s.set dst (s.reg dst+n)
  | .clear dst mask => s.set dst (s.reg dst-(s.reg dst &&& mask))

def run (code : List (Instr R)) (s : Cpu R) : Cpu R := code.foldl (step sp) s

variable {sp} {s : Cpu R} {r : R} {rs : List R}

theorem run_append (code code' : List (Instr R)) :
    run sp (code ++ code') s = run sp code' (run sp code s) := List.foldl_append ..

theorem run_cons (i : Instr R) (code : List (Instr R)) :
    run sp (i :: code) s = run sp code (step sp s i) := rfl

/-- The registers `rs` lie in memory from `a` up. -/
def Lies (mem : Nat → Nat) (reg : R → Nat) : Nat → List R → Prop
  | _, [] => True
  | a, r :: rs => mem a = reg r ∧ Lies mem reg (a+8) rs

omit [DecidableEq R] in
theorem Lies.congr {mem mem' : Nat → Nat} {reg reg' : R → Nat} {a : Nat} (h : Lies mem reg a rs)
    (hmem : ∀ b, a ≤ b → b < a+8*rs.length → mem' b = mem b) (hreg : ∀ r ∈ rs, reg' r = reg r) :
    Lies mem' reg' a rs := by
  induction rs generalizing a with
  | nil => trivial
  | cons r rs ih =>
    rw [List.length_cons] at hmem
    refine ⟨?_, ih h.2 (fun b hb hb' => hmem b (by omega) (by omega)) fun r hr =>
      hreg r (List.mem_cons_of_mem _ hr)⟩
    rw [hmem a (by omega) (by omega), hreg r List.mem_cons_self]
    exact h.1

omit [DecidableEq R] in
theorem Lies.append {mem : Nat → Nat} {reg : R → Nat} {a : Nat} {rs' : List R} :
    Lies mem reg a (rs ++ rs') ↔ Lies mem reg a rs ∧ Lies mem reg (a+8*rs.length) rs' := by
  induction rs generalizing a with
  | nil => exact (and_iff_right trivial).symm
  | cons r rs ih =>
    rw [List.cons_append, Lies, Lies, ih, and_assoc, List.length_cons, Nat.add_right_comm,
      Nat.add_assoc a, Nat.mul_succ]

omit [DecidableEq R] in
theorem Lies.copy {mem mem' : Nat → Nat} {reg : R → Nat} {a b : Nat} (h : Lies mem reg a rs)
    (hcopy : ∀ i, i < rs.length → mem' (b+8*i) = mem (a+8*i)) : Lies mem' reg b rs := by
  induction rs generalizing a b with
  | nil => trivial
  | cons r rs ih =>
    refine ⟨(hcopy 0 (Nat.zero_lt_succ _)).trans h.1, ih h.2 fun i hi => ?_⟩
    have hi' := hcopy (i+1) (Nat.succ_lt_succ hi)
    rwa [Nat.mul_succ, Nat.add_comm _ 8, ← Nat.add_assoc, ← Nat.add_assoc] at hi'

/-- Pushes leave the registers below the stack pointer, the first one on top, and touch
nothing else. -/
theorem run_pushes (sp : R) (s : Cpu R) (rs : List R) (hroom : 8*rs.length ≤ s.reg sp)
    (hsp : sp ∉ rs) :
    let s' := run sp (rs.map .push) s
    s'.reg = update s.reg sp (s.reg sp-8*rs.length) ∧
      Lies s'.mem s.reg (s.reg sp-8*rs.length) rs.reverse ∧
      ∀ a, a < s.reg sp-8*rs.length ∨ s.reg sp ≤ a → s'.mem a = s.mem a := by
  induction rs generalizing s with
  | nil =>
    refine ⟨?_, trivial, fun _ _ => rfl⟩
    exact (update_eq_self sp s.reg).symm
  | cons r rs ih =>
    rw [List.length_cons] at hroom ⊢
    obtain ⟨hr,hrs⟩ : sp ≠ r ∧ sp ∉ rs := by simpa using hsp
    have htop : (step sp s (.push r)).reg sp = s.reg sp-8 := update_self ..
    have hmem (a : Nat) (ha : a ≠ s.reg sp-8) : (step sp s (.push r)).mem a = s.mem a :=
      update_of_ne ha _ _
    obtain ⟨hreg,hlies,hrest⟩ := ih (step sp s (.push r)) (by omega) hrs
    rw [htop, Nat.sub_sub, show 8+8*rs.length = 8*(rs.length+1) by omega] at hreg hlies hrest
    rw [List.map_cons, run_cons]
    refine ⟨?_, ?_, fun a ha => ?_⟩
    · rw [hreg]
      exact update_idem ..
    · rw [List.reverse_cons, Lies.append]
      refine ⟨hlies.congr (fun _ _ _ => rfl) fun q hq => ?_, ?_, trivial⟩
      · have hne : q ≠ sp := fun h => hrs (h ▸ List.mem_reverse.mp hq)
        exact (update_of_ne hne _ _).symm
      · rw [List.length_reverse, hrest _ (by omega)]
        have ha : s.reg sp-8*(rs.length+1)+8*rs.length = s.reg sp-8 := by omega
        rw [ha]
        exact update_self ..
    · rw [hrest a (by omega)]
      exact hmem a (by omega)

theorem run_pops (sp : R) (s : Cpu R) (reg : R → Nat) (rs : List R) (hn : rs.Nodup)
    (hsp : sp ∉ rs) (hlies : Lies s.mem reg (s.reg sp) rs) :
    let s' := run sp (rs.map .pop) s
    s'.mem = s.mem ∧ s'.reg sp = s.reg sp+8*rs.length ∧ (∀ r ∈ rs, s'.reg r = reg r) ∧
      ∀ r ∉ rs, r ≠ sp → s'.reg r = s.reg r := by
  induction rs generalizing s with
  | nil => exact ⟨rfl, rfl, fun _ h => absurd h List.not_mem_nil, fun _ _ _ => rfl⟩
  | cons r rs ih =>
    obtain ⟨hnot,hn⟩ := List.nodup_cons.mp hn
    obtain ⟨hr,hrs⟩ : sp ≠ r ∧ sp ∉ rs := by simpa using hsp
    have htop : (step sp s (.pop r)).reg sp = s.reg sp+8 := by
      change update (update s.reg sp _) r _ sp = _
      rw [update_of_ne hr, update_self]
    have hother (q : R) (hq : q ≠ r) (hqs : q ≠ sp) : (step sp s (.pop r)).reg q = s.reg q := by
      change update (update s.reg sp _) r _ q = _
      rw [update_of_ne hq, update_of_ne hqs]
    obtain ⟨hmem,htop',hin,hout⟩ := ih (step sp s (.pop r)) hn hrs (htop ▸ hlies.2)
    rw [List.map_cons, run_cons]
    refine ⟨hmem, ?_, fun q hq => ?_, fun q hq hqs => ?_⟩
    · rw [htop', htop, List.length_cons]
      omega
    · obtain rfl | hq := List.mem_cons.mp hq
      · rw [hout q hnot hr.symm]
        exact (update_self ..).trans hlies.1
      · exact hin q hq
    · rw [List.mem_cons, not_or] at hq
      rw [hout q hq.2 hqs, hother q hq.1 hqs]

/-! Code between pushes and pops. -/

/-- The stack pointer and the `n` bytes above it come back from a call as they were. -/
def Respects (sp : R) (n : Nat) (body : Cpu R → Cpu R) : Prop :=
  ∀ s, (body s).reg sp = s.reg sp ∧
    ∀ a, s.reg sp ≤ a → a < s.reg sp+n → (body s).mem a = s.mem a

/-- Registers that are pushed before a call and popped in the reverse order after it come
back, with what lies above them. -/
theorem run_around (sp : R) (s : Cpu R) (rs : List R) (hn : rs.Nodup) (hsp : sp ∉ rs)
    (hroom : 8*rs.length ≤ s.reg sp) {n : Nat} {body : Cpu R → Cpu R}
    (hbody : Respects sp (8*rs.length+n) body) :
    let s' := run sp (rs.reverse.map .pop) (body (run sp (rs.map .push) s))
    s'.reg sp = s.reg sp ∧ (∀ r ∈ rs, s'.reg r = s.reg r) ∧
      ∀ a, s.reg sp ≤ a → a < s.reg sp+n → s'.mem a = s.mem a := by
  obtain ⟨hreg,hlies,hrest⟩ := run_pushes sp s rs hroom hsp
  have htop : (run sp (rs.map .push) s).reg sp = s.reg sp-8*rs.length := by
    rw [hreg, update_self]
  obtain ⟨hsame,hkeep⟩ := hbody (run sp (rs.map .push) s)
  rw [htop] at hsame hkeep
  have hlies' : Lies (body (run sp (rs.map .push) s)).mem s.reg
      ((body (run sp (rs.map .push) s)).reg sp) rs.reverse := by
    rw [hsame]
    refine hlies.congr (fun a ha ha' => hkeep a ha ?_) fun _ _ => rfl
    rw [List.length_reverse] at ha'
    omega
  obtain ⟨hmem,htop',hin,-⟩ := run_pops sp _ s.reg rs.reverse (List.nodup_reverse.mpr hn)
    (fun h => hsp (List.mem_reverse.mp h)) hlies'
  rw [hsame, List.length_reverse] at htop'
  refine ⟨by rw [htop']; omega, fun r hr => hin r (List.mem_reverse.mpr hr), fun a ha ha' => ?_⟩
  rw [hmem, hkeep a (by omega) (by omega), hrest a (by omega)]

end NetKernel.StackCode
