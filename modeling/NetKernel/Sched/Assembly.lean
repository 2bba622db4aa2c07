import NetKernel.Lib.StackCode

/-! `machine.S`: the code that switches threads and the code around traps and system calls,
instruction by instruction. -/
namespace NetKernel.Assembly
open StackCode Function

inductive Reg where
  | rax
  | rbx
  | rcx
  | rdx
  | rsi
  | rdi
  | rbp
  | rsp
  | r8
  | r9
  | r10
  | r11
  | r12
  | r13
  | r14
  | r15
  | rip
  | cs
  | rflags
  | ss
  | cr2
  | cr3
  | fs
  | gs
deriving DecidableEq, Repr

abbrev Core := Cpu Reg

/-- The interrupt flag, cleared by `cli`. -/
abbrev interruptFlag : Nat := 0x200

abbrev exec (code : List (Instr Reg)) (s : Core) : Core := run .rsp code s

theorem exec_append (code code' : List (Instr Reg)) (s : Core) :
    exec (code ++ code') s = exec code' (exec code s) := run_append ..

/-! `context_switch_`. -/

/-- The offset of `saved_rsp` in a `TCB`. -/
abbrev savedRsp : Nat := 8

def savePart : List (Instr Reg) :=
  [.mov .rax .fs, .push .rbx, .push .rbp, .push .r12, .push .r13, .push .r14, .push .r15,
    .push .rflags, .mov .r15 .cr2, .push .r15, .mov .r14 .cr3, .push .r14,
    .clear .rflags interruptFlag, .store .fs savedRsp .rsp]

def loadPart : List (Instr Reg) :=
  [.mov .fs .rdi, .load .rsp .fs savedRsp, .pop .r14, .mov .cr3 .r14, .pop .r15, .mov .cr2 .r15,
    .pop .rflags, .pop .r15, .pop .r14, .pop .r13, .pop .r12, .pop .rbp, .pop .rbx,
    .mov .rdi .rax, .pop .rip]

/-- `context_switch_` with its `ret`. -/
def contextSwitch : List (Instr Reg) := savePart ++ loadPart

/-- What lies on the stack of a thread that is not running, from `saved_rsp` up. -/
def frame : List Reg := [.cr3, .cr2, .rflags, .r15, .r14, .r13, .r12, .rbp, .rbx, .rip]

def returned (s : Core) : Reg → Nat := update s.reg .rip (s.mem (s.reg .rsp))

/-- The memory of a thread that has left its registers on its stack. -/
structure Saved (s s' : Core) : Prop where
  frame : Lies s'.mem (returned s) (s.reg .rsp-72) frame
  saved : s'.mem (s.reg .fs+savedRsp) = s.reg .rsp-72
  rest : ∀ a, a < s.reg .rsp-72 ∨ s.reg .rsp ≤ a → a ≠ s.reg .fs+savedRsp → s'.mem a = s.mem a

variable {s : Core}

/-- The end of `savePart`, once the general registers are on the stack. -/
def saveControl : List (Instr Reg) :=
  [.mov .r15 .cr2, .push .r15, .mov .r14 .cr3, .push .r14, .clear .rflags interruptFlag,
    .store .fs savedRsp .rsp]

theorem exec_saveControl : (exec saveControl s).mem =
      update (update (update s.mem (s.reg .rsp-8) (s.reg .cr2)) (s.reg .rsp-16) (s.reg .cr3))
        (s.reg .fs+savedRsp) (s.reg .rsp-16) ∧
    (exec saveControl s).reg .rax = s.reg .rax ∧ (exec saveControl s).reg .rdi = s.reg .rdi := by
  simp [exec, saveControl, run, step, Cpu.set, Cpu.write, Nat.sub_sub]

theorem exec_savePart (hroom : 72 ≤ s.reg .rsp)
    (hfs : s.reg .fs+savedRsp < s.reg .rsp-72 ∨ s.reg .rsp+8 ≤ s.reg .fs+savedRsp) :
    Saved s (exec savePart s) ∧ (exec savePart s).reg .rax = s.reg .fs ∧
      (exec savePart s).reg .rdi = s.reg .rdi := by
  have hsplit : exec savePart s = exec saveControl (run .rsp
      ([Reg.rbx, .rbp, .r12, .r13, .r14, .r15, .rflags].map Instr.push)
        (step .rsp s (.mov .rax .fs))) := by
    rw [exec, exec, ← run_append, ← run_cons]
    rfl
  rw [hsplit]
  obtain ⟨hreg,hlies,hrest⟩ := run_pushes .rsp (step .rsp s (.mov .rax .fs))
    [.rbx, .rbp, .r12, .r13, .r14, .r15, .rflags] (by change 56 ≤ s.reg .rsp; omega) (by decide)
  generalize run .rsp ([Reg.rbx, .rbp, .r12, .r13, .r14, .r15, .rflags].map Instr.push)
    (step .rsp s (.mov .rax .fs)) = s₁ at hreg hlies hrest ⊢
  change s₁.reg = update (update s.reg .rax (s.reg .fs)) .rsp (s.reg .rsp-56) at hreg
  change Lies s₁.mem (update s.reg .rax (s.reg .fs)) (s.reg .rsp-56) _ at hlies
  change ∀ a, a < s.reg .rsp-56 ∨ s.reg .rsp ≤ a → s₁.mem a = s.mem a at hrest
  obtain ⟨hmem,hrax,hrdi⟩ := exec_saveControl (s := s₁)
  have hsp : s₁.reg .rsp = s.reg .rsp-56 := by rw [hreg, update_self]
  have hkeep (r : Reg) (hr : r ≠ .rax) (hr' : r ≠ .rsp) : s₁.reg r = s.reg r := by
    rw [hreg, update_of_ne hr', update_of_ne hr]
  rw [hsp, hkeep .cr2 (by decide) (by decide), hkeep .cr3 (by decide) (by decide),
    hkeep .fs (by decide) (by decide), Nat.sub_sub,
    Nat.sub_sub] at hmem
  have hother (a : Nat) (h8 : a ≠ s.reg .rsp-64) (h16 : a ≠ s.reg .rsp-72)
      (hfs : a ≠ s.reg .fs+savedRsp) : (exec saveControl s₁).mem a = s₁.mem a := by
    rw [hmem, update_of_ne hfs, update_of_ne h16, update_of_ne h8]
  have hcontrol : Lies (exec saveControl s₁).mem (returned s) (s.reg .rsp-72) [.cr3, .cr2] := by
    refine ⟨?_, ?_, trivial⟩
    · rw [hmem, update_of_ne (by omega), update_self]
      rfl
    · rw [hmem, update_of_ne (by omega), update_of_ne (by omega),
        show s.reg .rsp-72+8 = s.reg .rsp-(56+8) by omega, update_self]
      rfl
  have hgeneral : Lies (exec saveControl s₁).mem (returned s) (s.reg .rsp-56)
      [.rflags, .r15, .r14, .r13, .r12, .rbp, .rbx] := by
    have hkept : ∀ r ∈ [Reg.rflags, .r15, .r14, .r13, .r12, .rbp, .rbx], r ≠ .rax ∧ r ≠ .rip := by
      decide
    refine hlies.congr (fun a ha ha' => ?_) fun r hr => ?_
    · have ha' : a < s.reg .rsp-56+56 := ha'
      exact hother a (by omega) (by omega) (by omega)
    · obtain ⟨hrax,hrip⟩ := hkept r hr
      rw [returned, update_of_ne hrip, update_of_ne hrax]
  have hreturn : (exec saveControl s₁).mem (s.reg .rsp) = returned s .rip := by
    rw [hother _ (by omega) (by omega) (by omega), hrest _ (by omega)]
    rfl
  refine ⟨⟨?_, ?_, fun a ha hne => ?_⟩, ?_, ?_⟩
  · have hframe : frame = [.cr3, .cr2] ++
        ([.rflags, .r15, .r14, .r13, .r12, .rbp, .rbx] ++ [.rip]) := rfl
    rw [hframe, Lies.append, Lies.append]
    refine ⟨hcontrol, ?_, ?_, trivial⟩
    · rwa [show s.reg .rsp-72+8*[Reg.cr3, .cr2].length = s.reg .rsp-56 by
        simp only [List.length_cons, List.length_nil]; omega]
    · rw [← hreturn]
      congr 1
      simp only [List.length_cons, List.length_nil]
      omega
  · rw [hmem, update_self]
  · rw [hother a (by omega) (by omega) hne, hrest a (by omega)]
  · rw [hrax, hreg]
    rfl
  · rw [hrdi]
    exact hkeep .rdi (by decide) (by decide)

/-- What a thread finds that is switched to: its registers as `ctx` has them, and in `rax` and
`rdi` the thread that ran before. -/
structure Resumed (ctx : Reg → Nat) (prev next : Nat) (s : Core) : Prop where
  kept : ∀ r ∈ frame, s.reg r = ctx r
  fs : s.reg .fs = next
  prev : s.reg .rax = prev ∧ s.reg .rdi = prev

/-- The start of `loadPart`, up to the general registers. -/
def loadControl : List (Instr Reg) :=
  [.mov .fs .rdi, .load .rsp .fs savedRsp, .pop .r14, .mov .cr3 .r14, .pop .r15, .mov .cr2 .r15]

theorem exec_loadControl {q : Nat} (hq : s.mem (s.reg .rdi+savedRsp) = q) :
    (exec loadControl s).mem = s.mem ∧ (exec loadControl s).reg .rsp = q+16 ∧
      (exec loadControl s).reg .cr3 = s.mem q ∧ (exec loadControl s).reg .cr2 = s.mem (q+8) ∧
      (exec loadControl s).reg .fs = s.reg .rdi ∧ (exec loadControl s).reg .rax = s.reg .rax := by
  simp [exec, loadControl, run, step, Cpu.set, hq]

theorem exec_loadPart {ctx : Reg → Nat} {q : Nat} (hq : s.mem (s.reg .rdi+savedRsp) = q)
    (hframe : Lies s.mem ctx q frame) :
    Resumed ctx (s.reg .rax) (s.reg .rdi) (exec loadPart s) ∧
      (exec loadPart s).reg .rsp = q+80 ∧ (exec loadPart s).mem = s.mem := by
  have hsplit : exec loadPart s = exec [.mov .rdi .rax, .pop .rip] (run .rsp
      ([Reg.rflags, .r15, .r14, .r13, .r12, .rbp, .rbx].map Instr.pop) (exec loadControl s)) := by
    rw [exec, exec, exec, ← run_append, ← run_append]
    rfl
  obtain ⟨hcr3,hcr2,hrest⟩ := hframe
  have hparts : Lies s.mem ctx (q+16)
      ([.rflags, .r15, .r14, .r13, .r12, .rbp, .rbx] ++ [.rip]) := hrest
  obtain ⟨hgeneral,hrip,-⟩ := Lies.append.mp hparts
  obtain ⟨hmem,hrsp,hcr3',hcr2',hfs,hrax⟩ := exec_loadControl hq
  obtain ⟨hmem₁,hrsp₁,hin,hout⟩ := run_pops .rsp (exec loadControl s) ctx
    [.rflags, .r15, .r14, .r13, .r12, .rbp, .rbx] (by decide) (by decide)
    (by rw [hmem, hrsp]; exact hgeneral)
  rw [hsplit]
  generalize run .rsp ([Reg.rflags, .r15, .r14, .r13, .r12, .rbp, .rbx].map Instr.pop)
    (exec loadControl s) = s₁ at hmem₁ hrsp₁ hin hout ⊢
  have hlast : (exec [.mov .rdi .rax, .pop .rip] s₁).mem = s₁.mem ∧
      (exec [.mov .rdi .rax, .pop .rip] s₁).reg .rsp = s₁.reg .rsp+8 ∧
      (exec [.mov .rdi .rax, .pop .rip] s₁).reg .rip = s₁.mem (s₁.reg .rsp) ∧
      (exec [.mov .rdi .rax, .pop .rip] s₁).reg .rdi = s₁.reg .rax ∧
      ∀ r, r ≠ .rdi → r ≠ .rip → r ≠ .rsp →
        (exec [.mov .rdi .rax, .pop .rip] s₁).reg r = s₁.reg r := by
    simp +contextual [exec, run, step, Cpu.set]
  obtain ⟨hmem₂,hrsp₂,hrip₂,hrdi₂,hother⟩ := hlast
  have htop : s₁.reg .rsp = q+72 := by rw [hrsp₁, hrsp]; rfl
  have hrax₁ : s₁.reg .rax = s.reg .rax := by rw [hout .rax (by decide) (by decide), hrax]
  refine ⟨⟨fun r hr => ?_, ?_, ?_, ?_⟩, ?_, ?_⟩
  · have hcases : r = .cr3 ∨ r = .cr2 ∨ r ∈ [Reg.rflags, .r15, .r14, .r13, .r12, .rbp, .rbx] ∨
        r = .rip := by
      simp only [frame, List.mem_cons, List.not_mem_nil] at hr ⊢
      tauto
    obtain rfl | rfl | hmid | rfl := hcases
    · rw [hother .cr3 (by decide) (by decide) (by decide), hout .cr3 (by decide) (by decide),
        hcr3', hcr3]
    · rw [hother .cr2 (by decide) (by decide) (by decide), hout .cr2 (by decide) (by decide),
        hcr2', hcr2]
    · have hne : ∀ r ∈ [Reg.rflags, .r15, .r14, .r13, .r12, .rbp, .rbx],
          r ≠ .rdi ∧ r ≠ .rip ∧ r ≠ .rsp := by decide
      obtain ⟨hrdi,hripne,hrspne⟩ := hne r hmid
      rw [hother r hrdi hripne hrspne, hin r hmid]
    · rw [hrip₂, htop, hmem₁, hmem, ← hrip]
      rfl
  · rw [hother .fs (by decide) (by decide) (by decide), hout .fs (by decide) (by decide), hfs]
  · rw [hother .rax (by decide) (by decide) (by decide), hrax₁]
  · rw [hrdi₂, hrax₁]
  · rw [hrsp₂, htop]
  · rw [hmem₂, hmem₁, hmem]

end NetKernel.Assembly
